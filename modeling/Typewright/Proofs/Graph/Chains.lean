import Typewright.Proofs.Graph.Targets

/-!
# Chains of references

From a fragment the recorded references lead on, each to one target, until one is met that is no
reference or is not loaded, if ever. `SchemaGraph.resolve` finds this end if at most as many
references lead to it as the limit allows, and fails otherwise (`resolve_eq_end_of_chain`). So no
limit helps where the references go round, and all fragments on the way to an end that is found have
this end.
-/

namespace Typewright

namespace SchemaGraph

variable {refs : List (Fragment × Target)} {a b c : Fragment} {t : Target} {m n : Nat}

/-! ## Chains and their ends -/

/-- So many recorded references lead from one fragment to another. -/
inductive Hops (refs : List (Fragment × Target)) : Nat → Fragment → Fragment → Prop where
  | here (a : Fragment) : Hops refs 0 a a
  | next {n : Nat} {a b c : Fragment} (target : refs.lookup a = some (.fragment b))
      (rest : Hops refs n b c) : Hops refs (n + 1) a c

/-- What a chain has found that does not lead on from a fragment. -/
inductive EndsAt (refs : List (Fragment × Target)) : Fragment → Target → Prop where
  /-- No reference stands there. -/
  | schema {a : Fragment} (plain : refs.lookup a = none) : EndsAt refs a (.fragment a)
  /-- The reference there is not loaded. -/
  | unloaded {a : Fragment} {name : String} (target : refs.lookup a = some (.external name)) :
      EndsAt refs a (.external name)

theorem EndsAt.lookup_ne (h : EndsAt refs a t) : refs.lookup a ≠ some (.fragment b) := by
  intro hl
  cases h with
  | schema plain => rw [plain] at hl; cases hl
  | unloaded target => rw [target] at hl; cases hl

theorem endsAt_fragment_iff :
    EndsAt refs b (.fragment c) ↔ b = c ∧ refs.lookup c = none := by
  constructor
  · rintro (plain | _)
    exact ⟨rfl, plain⟩
  · rintro ⟨rfl, plain⟩
    exact .schema plain

theorem endsAt_external_iff {name : String} :
    EndsAt refs b (.external name) ↔ refs.lookup b = some (.external name) :=
  ⟨fun | .unloaded target => target, .unloaded⟩

/-- A fragment that the chain passes is on the way to the end. -/
theorem Hops.exists_rest (hc : Hops refs m a c) (hb : Hops refs n a b) (hend : EndsAt refs b t) :
    ∃ k, n = m + k ∧ Hops refs k c b := by
  induction hc generalizing n with
  | here a => exact ⟨n, (Nat.zero_add n).symm, hb⟩
  | next target _ ih =>
      cases hb with
      | here => exact absurd target hend.lookup_ne
      | next target' rest =>
          obtain rfl := Target.fragment.inj (Option.some.inj (target.symm.trans target'))
          obtain ⟨k, rfl, hk⟩ := ih rest
          exact ⟨k, by omega, hk⟩

/-- References that go round lead to no end. -/
theorem Hops.not_endsAt_of_round (hround : Hops refs (m + 1) a a) (hb : Hops refs n a b) :
    ¬ EndsAt refs b t := by
  induction n using Nat.strongRecOn with
  | _ n ih =>
      intro hend
      obtain ⟨k, rfl, hk⟩ := hround.exists_rest hb hend
      exact ih k (by omega) hk hend

/-- A chain ends or leads on. -/
theorem ends_or_hops (refs : List (Fragment × Target)) (n : Nat) (a : Fragment) :
    (∃ k < n, ∃ b t, Hops refs k a b ∧ EndsAt refs b t) ∨ ∃ b, Hops refs n a b := by
  induction n generalizing a with
  | zero => exact .inr ⟨a, .here a⟩
  | succ n ih =>
      cases hl : refs.lookup a with
      | none => exact .inl ⟨0, Nat.succ_pos n, a, _, .here a, .schema hl⟩
      | some target =>
          cases target with
          | external name => exact .inl ⟨0, Nat.succ_pos n, a, _, .here a, .unloaded hl⟩
          | fragment next =>
              rcases ih next with ⟨k, hk, b, t, hb, hend⟩ | ⟨b, hb⟩
              · exact .inl ⟨k + 1, Nat.succ_lt_succ hk, b, t, .next hl hb, hend⟩
              · exact .inr ⟨b, .next hl hb⟩

/-! ## Following a chain -/

variable {g : SchemaGraph} {start s : Fragment} {hops : Nat}

theorem follow_of_endsAt (hb : Hops g.refs n a b) (hend : EndsAt g.refs b t) (hn : n < hops) :
    g.follow start hops a = .ok t := by
  induction hb generalizing hops with
  | here a =>
      cases hops with
      | zero => exact absurd hn (Nat.not_lt_zero 0)
      | succ hops =>
          cases hend with
          | schema plain => rw [follow, plain]
          | unloaded target => rw [follow, target]
  | next target _ ih =>
      cases hops with
      | zero => exact absurd hn (Nat.not_lt_zero _)
      | succ hops =>
          rw [follow, target]
          exact ih hend (Nat.lt_of_succ_lt_succ hn)

theorem follow_of_hops (h : Hops g.refs hops a b) : g.follow start hops a =
    .error (.reference start.pointer b.pointer (.chainTooLong g.maxDepth)) := by
  induction h with
  | here => rfl
  | next target _ ih =>
      rw [follow, target]
      exact ih

theorem resolve_eq_ok_iff : g.resolve s = .ok t ↔
    ∃ n ≤ g.maxDepth, ∃ b, Hops g.refs n s b ∧ EndsAt g.refs b t := by
  refine ⟨fun h => ?_, fun ⟨n, hn, b, hb, hend⟩ => follow_of_endsAt hb hend (Nat.lt_succ_of_le hn)⟩
  rcases ends_or_hops g.refs (g.maxDepth + 1) s with ⟨n, hn, b, t', hb, hend⟩ | ⟨b, hb⟩
  · obtain rfl := Except.ok.inj (h.symm.trans (follow_of_endsAt hb hend hn))
    exact ⟨n, Nat.le_of_lt_succ hn, b, hb, hend⟩
  · rw [resolve, follow_of_hops hb] at h
    cases h

theorem resolve_eq_error (h : ¬ ∃ n ≤ g.maxDepth, ∃ b t, Hops g.refs n s b ∧ EndsAt g.refs b t) :
    ∃ b, Hops g.refs (g.maxDepth + 1) s b ∧ g.resolve s =
      .error (.reference s.pointer b.pointer (.chainTooLong g.maxDepth)) := by
  rcases ends_or_hops g.refs (g.maxDepth + 1) s with ⟨n, hn, hend⟩ | ⟨b, hb⟩
  · exact absurd ⟨n, Nat.le_of_lt_succ hn, hend⟩ h
  · exact ⟨b, hb, follow_of_hops hb⟩

/-- What is on the way to an end that is found has this end. -/
theorem resolve_of_hops (h : g.resolve s = .ok t) (hc : Hops g.refs m s c) :
    g.resolve c = .ok t := by
  obtain ⟨n, hn, b, hb, hend⟩ := resolve_eq_ok_iff.1 h
  obtain ⟨k, rfl, hk⟩ := hc.exists_rest hb hend
  exact resolve_eq_ok_iff.2 ⟨k, Nat.le_trans (Nat.le_add_left k m) hn, b, hk, hend⟩

/-- Where references go round, or lead to where they do, no limit is enough. -/
theorem resolve_of_round (hb : Hops g.refs n s b) (hround : Hops g.refs (m + 1) b b) :
    ∃ c : Fragment,
      g.resolve s = .error (.reference s.pointer c.pointer (.chainTooLong g.maxDepth)) := by
  obtain ⟨c, -, h⟩ := resolve_eq_error (g := g) (s := s) fun ⟨_, _, _, _, hc, hend⟩ =>
    have ⟨_, _, hrest⟩ := hb.exists_rest hc hend
    hround.not_endsAt_of_round hrest hend
  exact ⟨c, h⟩

theorem maxDepth_of_load {env : Environment} {options : Options} {location : Option FileUrl}
    {schema : Json} (h : load env options location schema = .ok g) :
    g.maxDepth = options.refOptions.maxDepth := by
  unfold load at h
  obtain ⟨st, -, h⟩ := Loading.ok_of_bind h
  obtain rfl := Except.ok.inj h
  rfl

/-- A fragment resolves to the end of the chain of references from it if at most as many lead there
as the limit of the options allows, and otherwise the resolution fails where one more leads. So it
fails under every limit where the references go round, what it finds resolves to itself, and all
that is on the way resolves to the same. -/
theorem resolve_eq_end_of_chain (g : SchemaGraph) (s : Fragment) :
    (∀ t, g.resolve s = .ok (.fragment t) ↔
      ∃ n ≤ g.maxDepth, Hops g.refs n s t ∧ g.refs.lookup t = none) ∧
    (∀ name, g.resolve s = .ok (.external name) ↔
      ∃ n ≤ g.maxDepth, ∃ b, Hops g.refs n s b ∧ g.refs.lookup b = some (.external name)) ∧
    ((¬ ∃ n ≤ g.maxDepth, ∃ b, Hops g.refs n s b ∧
        ∀ next, g.refs.lookup b ≠ some (.fragment next)) →
      ∃ b, Hops g.refs (g.maxDepth + 1) s b ∧ g.resolve s =
        .error (.reference s.pointer b.pointer (.chainTooLong g.maxDepth))) ∧
    (∀ limit n m b, Hops g.refs n s b → Hops g.refs (m + 1) b b →
      ∃ c : Fragment, { g with maxDepth := limit }.resolve s =
        .error (.reference s.pointer c.pointer (.chainTooLong limit))) ∧
    (∀ t, g.resolve s = .ok (.fragment t) → g.resolve t = .ok (.fragment t)) ∧
    (∀ t, g.resolve s = .ok t → ∀ n b, Hops g.refs n s b → g.resolve b = .ok t) ∧
    ∀ env options location schema, load env options location schema = .ok g →
      g.maxDepth = options.refOptions.maxDepth := by
  refine ⟨fun t => ?_, fun name => ?_, fun hnone => resolve_eq_error ?_,
    fun limit n m b hb hround => resolve_of_round (g := { g with maxDepth := limit }) hb hround,
    fun t ht => ?_, fun t ht n b => resolve_of_hops ht, fun _ _ _ _ => maxDepth_of_load⟩
  · simp only [resolve_eq_ok_iff, endsAt_fragment_iff]
    constructor
    · rintro ⟨n, hn, _, hb, rfl, plain⟩
      exact ⟨n, hn, hb, plain⟩
    · rintro ⟨n, hn, hb, plain⟩
      exact ⟨n, hn, t, hb, rfl, plain⟩
  · simp only [resolve_eq_ok_iff, endsAt_external_iff]
  · rintro ⟨n, hn, b, t, hb, hend⟩
    exact hnone ⟨n, hn, b, hb, fun next => hend.lookup_ne⟩
  · obtain ⟨_, -, _, -, hend⟩ := resolve_eq_ok_iff.1 ht
    obtain ⟨-, plain⟩ := endsAt_fragment_iff.1 hend
    exact resolve_of_lookup_eq_none plain

/-! ## A chain at the limit -/

/-- A definition that refers to itself, three that refer to the next, and one that is not loaded. -/
def linked : Json :=
  .object [("definitions", .object [
    ("round", .object [("$ref", .string "#/definitions/round")]),
    ("third", .object [("$ref", .string "#/definitions/second")]),
    ("second", .object [("$ref", .string "#/definitions/first")]),
    ("first", .object [("$ref", .string "#/definitions/plain")]),
    ("plain", .object []),
    ("outside", .object [("$ref", .string "other.json")])])]

/-- A definition of the root. -/
def definition (key : String) : Fragment := ⟨0, Pointer.build "#" ["definitions", key], none⟩

def linkedChains : SchemaGraph where
  documents := [⟨none, linked⟩]
  refs := [(definition "round", .fragment (definition "round")),
    (definition "third", .fragment (definition "second")),
    (definition "second", .fragment (definition "first")),
    (definition "first", .fragment (definition "plain")),
    (definition "outside", .external "other")]
  maxDepth := 2

theorem hops_round (n : Nat) :
    Hops linkedChains.refs n (definition "round") (definition "round") := by
  induction n with
  | zero => exact .here _
  | succ n ih => exact .next (by decide) ih

theorem load_linked : load ⟨"/work", fun _ => .missing⟩
    { refOptions := { external := false, maxDepth := 2 } } none linked = .ok linkedChains := by
  have hpositions : Schema.positions "#" linked = [("#", linked),
      ("#/definitions/round", .object [("$ref", .string "#/definitions/round")]),
      ("#/definitions/third", .object [("$ref", .string "#/definitions/second")]),
      ("#/definitions/second", .object [("$ref", .string "#/definitions/first")]),
      ("#/definitions/first", .object [("$ref", .string "#/definitions/plain")]),
      ("#/definitions/plain", .object []),
      ("#/definitions/outside", .object [("$ref", .string "other.json")])] := by
    rw [linked, Schema.positions_object]
    refine congrArg (List.cons _) ?_
    change [_, _, _, _, ("#/definitions/plain", Json.object []), _].flatMap _ = _
    simp only [List.flatMap_cons, Schema.positions_reference]
    rw [Schema.positions_object]
    rfl
  refine load_of_alone rfl ?_
  rw [hpositions]
  rfl

/-- Two references are followed, and a third is not. -/
theorem resolve_eq_end_of_chain_linked :
    load ⟨"/work", fun _ => .missing⟩ { refOptions := { external := false, maxDepth := 2 } } none
      linked = .ok linkedChains ∧
    linkedChains.resolve (definition "second") = .ok (.fragment (definition "plain")) ∧
    linkedChains.resolve (definition "first") = .ok (.fragment (definition "plain")) ∧
    linkedChains.resolve (definition "third") = .error
      (.reference "#/definitions/third" "#/definitions/plain" (.chainTooLong 2)) ∧
    linkedChains.resolve (definition "outside") = .ok (.external "other") ∧
    ∀ limit, ∃ c : Fragment, { linkedChains with maxDepth := limit }.resolve (definition "round") =
      .error (.reference "#/definitions/round" c.pointer (.chainTooLong limit)) := by
  have hload := load_linked
  have hfirst : Hops linkedChains.refs 1 (definition "second") (definition "first") :=
    .next (by decide) (.here _)
  have hplain : Hops linkedChains.refs 1 (definition "first") (definition "plain") :=
    .next (by decide) (.here _)
  have hsecond : Hops linkedChains.refs 2 (definition "second") (definition "plain") :=
    .next (by decide) hplain
  have hthird : Hops linkedChains.refs 3 (definition "third") (definition "plain") :=
    .next (by decide) hsecond
  obtain ⟨hfragment, -, -, -, -, hsame, -⟩ :=
    resolve_eq_end_of_chain linkedChains (definition "second")
  obtain ⟨-, -, hlong, -⟩ := resolve_eq_end_of_chain linkedChains (definition "third")
  obtain ⟨-, hexternal, -⟩ := resolve_eq_end_of_chain linkedChains (definition "outside")
  obtain ⟨-, -, -, hround, -⟩ := resolve_eq_end_of_chain linkedChains (definition "round")
  have hend := (hfragment _).2 ⟨2, Nat.le_refl 2, hsecond, by decide⟩
  refine ⟨hload, hend, hsame _ hend 1 _ hfirst, ?_,
    (hexternal _).2 ⟨0, Nat.zero_le 2, _, .here _, by decide⟩,
    fun limit => hround limit 0 0 _ (hops_round 0) (hops_round 1)⟩
  -- the end is three references away, so what is nearer leads on
  obtain ⟨b, hb, herror⟩ := hlong <| by
    rintro ⟨n, hn, b, hb, hstops⟩
    obtain ⟨k, hk, hrest⟩ := hb.exists_rest hthird (.schema (by decide))
    cases hrest with
    | here => exact absurd hk (Nat.ne_of_gt (Nat.lt_succ_of_le hn))
    | next target => exact hstops _ target
  obtain ⟨k, hk, hrest⟩ := hb.exists_rest hthird (.schema (by decide))
  obtain rfl : k = 0 := Nat.add_left_cancel hk.symm
  cases hrest
  exact herror

end SchemaGraph

end Typewright
