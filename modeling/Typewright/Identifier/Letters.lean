/-!
# Letters with diacritics

The Latin letters of the blocks Latin-1 Supplement and Latin Extended-A, with the ASCII letters that
replace them, and the combining marks that are dropped.
-/

namespace Typewright.Identifier

/-- Letters, all replaced by one text. -/
def letterTable : List (String × String) :=
  [
    ("ÀÁÂÃÄÅĀĂĄ", "A"), ("àáâãäåāăą", "a"), ("ÇĆĈĊČ", "C"), ("çćĉċč", "c"), ("ÐĎĐ", "D"),
    ("ðďđ", "d"), ("ÈÉÊËĒĔĖĘĚ", "E"), ("èéêëēĕėęě", "e"), ("ĜĞĠĢ", "G"), ("ĝğġģ", "g"),
    ("ĤĦ", "H"), ("ĥħ", "h"), ("ÌÍÎÏĨĪĬĮİ", "I"), ("ìíîïĩīĭįı", "i"), ("Ĵ", "J"), ("ĵ", "j"),
    ("Ķ", "K"), ("ķĸ", "k"), ("ĹĻĽĿŁ", "L"), ("ĺļľŀł", "l"), ("ÑŃŅŇŊ", "N"), ("ñńņňŋ", "n"),
    ("ÒÓÔÕÖØŌŎŐ", "O"), ("òóôõöøōŏő", "o"), ("ŔŖŘ", "R"), ("ŕŗř", "r"), ("ŚŜŞŠ", "S"),
    ("śŝşšſ", "s"), ("ŢŤŦ", "T"), ("ţťŧ", "t"), ("ÙÚÛÜŨŪŬŮŰŲ", "U"), ("ùúûüũūŭůűų", "u"),
    ("Ŵ", "W"), ("ŵ", "w"), ("ÝŶŸ", "Y"), ("ýÿŷ", "y"), ("ŹŻŽ", "Z"), ("źżž", "z"), ("Æ", "Ae"),
    ("æ", "ae"), ("Þ", "Th"), ("þ", "th"), ("ß", "ss"), ("Ĳ", "IJ"), ("ĳ", "ij"), ("Œ", "Oe"),
    ("œ", "oe"), ("ŉ", "'n") ]

/-- A combining mark U+0300–U+036F. -/
def isCombining (c : Char) : Bool := 0x300 ≤ c.toNat && c.toNat ≤ 0x36F

/-- The ASCII text of a character: letters of the table are replaced, combining marks dropped, all
else kept. -/
def foldLetter (c : Char) : List Char :=
  if isCombining c then []
  else
    match letterTable.find? (fun row => row.1.toList.contains c) with
    | some row => row.2.toList
    | none => [c]

end Typewright.Identifier
