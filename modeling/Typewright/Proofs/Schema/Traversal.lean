import Typewright.Proofs.Schema.Normal

/-!
# Replacing the schemas inside

`Schema.traverseChildren` takes each keyword out of the object, visits the objects in its value and
puts it back. It makes the calls that `Schema.children` lists, the objects among them, in that order,
and stops at the first that fails (`traverseChildren_calls`). What a computation does when its calls
succeed, and where it stops when one fails, is put together from its parts (`Makes`).
-/

namespace Typewright

namespace Members

variable {ms : Members} {key : String} {value : Json}

/-! ## Members with other values -/

/-- Each value changed by itself; the keys stay in order. -/
def mapValues (f : String → Json → Json) (ms : Members) : Members :=
  ms.map fun m => (m.1, f m.1 m.2)

variable {f g : String → Json → Json}

@[simp] theorem keys_mapValues : keys (mapValues f ms) = keys ms := by
  simp [keys, mapValues]

@[simp] theorem lookup_mapValues :
    (mapValues f ms).lookup key = (ms.lookup key).map (f key) := by
  induction ms with
  | nil => rfl
  | cons m rest ih =>
      rw [mapValues, List.map_cons, List.lookup_cons, List.lookup_cons]
      split
      · rename_i heq
        simp [eq_of_beq heq]
      · exact ih

theorem mapValues_congr (h : ∀ key ∈ keys ms, f key = g key) : mapValues f ms = mapValues g ms :=
  List.map_congr_left fun m hm => by rw [h m.1 (List.mem_map_of_mem hm)]

theorem mapValues_self (h : ∀ key v, f key v = v) : mapValues f ms = ms := by
  simp [mapValues, h]

theorem put_mapValues (ms : Members) (key : String) (value : Json) :
    put (mapValues f ms) key (f key value) = mapValues f (put ms key value) := by
  induction ms with
  | nil => rfl
  | cons m rest ih =>
      simp only [mapValues, List.map_cons, put]
      split
      · rename_i heq
        rw [List.map_cons, eq_of_beq heq]
      · rw [List.map_cons]
        exact congrArg _ ih

theorem overwrite_mapValues (ms : Members) (key : String) (last : String × Json) :
    overwrite (mapValues f ms) key (last.1, f last.1 last.2) =
      mapValues f (overwrite ms key last) := by
  induction ms with
  | nil => rfl
  | cons m rest ih =>
      simp only [mapValues, List.map_cons, overwrite]
      split
      · rfl
      · rw [List.map_cons]
        exact congrArg _ ih

theorem remove_mapValues (ms : Members) (key : String) :
    remove (mapValues f ms) key = mapValues f (remove ms key) := by
  have hhas : has (mapValues f ms) key = has ms key := by simp [has]
  have hlast : (mapValues f ms).getLast? = ms.getLast?.map fun m => (m.1, f m.1 m.2) :=
    List.getLast?_map
  have hinit : (mapValues f ms).dropLast = mapValues f ms.dropLast := List.map_dropLast.symm
  rw [remove, remove, hhas, hlast, hinit]
  split
  · cases ms.getLast? with
    | none => rfl
    | some last =>
        dsimp only [Option.map_some]
        split
        · rfl
        · exact overwrite_mapValues _ _ _
  · rfl

theorem not_mem_keys_remove (hk : (keys ms).Nodup) : key ∉ keys (remove ms key) := fun hmem =>
  not_mem_keys_without ms key (((perm_remove hk key).map (·.1)).mem_iff.1 hmem)

theorem nodup_keys_without (hk : (keys ms).Nodup) (key : String) : (keys (without ms key)).Nodup :=
  hk.sublist (List.Sublist.map _ List.filter_sublist)

theorem nodup_keys_remove (hk : (keys ms).Nodup) (key : String) : (keys (remove ms key)).Nodup :=
  ((perm_remove hk key).map _).nodup_iff.2 (nodup_keys_without hk key)

theorem lookup_remove_of_ne {other : String} (hk : (keys ms).Nodup) (h : other ≠ key) :
    (remove ms key).lookup other = ms.lookup other := by
  rw [lookup_perm (perm_remove hk key) (nodup_keys_remove hk key)]
  refine Option.ext fun value => ?_
  rw [lookup_eq_some_iff (nodup_keys_without hk key), lookup_eq_some_iff hk, without,
    List.mem_filter]
  exact and_iff_left (bne_iff_ne.2 h)

end Members

namespace Schema

open Members (keys mapValues)

variable {ms : Members} {path keyword : String} {shape : Shape} {steps : List String} {v : Json}

theorem moveLast_mapValues (f : String → Json → Json) (ms : Members) (keyword : String) :
    moveLast (mapValues f ms) keyword = mapValues f (moveLast ms keyword) := by
  rw [moveLast, moveLast, Members.lookup_mapValues]
  cases ms.lookup keyword with
  | none => rfl
  | some value =>
      dsimp only [Option.map_some, Option.elim_some]
      rw [Members.remove_mapValues, Members.put_mapValues]

theorem settle_mapValues (f : String → Json → Json) (ms : Members) :
    settle (mapValues f ms) = mapValues f (settle ms) := by
  rw [settle_eq, settle_eq]
  induction keywords generalizing ms with
  | nil => rfl
  | cons e rest ih => rw [List.foldl_cons, moveLast_mapValues, ih, List.foldl_cons]

/-! ## What is replaced -/

/-- A value under `f` if it is an object. -/
def atObject (f : List String → Json → Json) (segments : List String) (v : Json) : Json :=
  if v.isObject then f segments v else v

/-- The objects among the parts of a keyword's value replaced, each at its place. -/
def Shape.replace (f : List String → Json → Json) : Shape → Json → Json
  | .byName, .object ms => .object (mapValues (fun key => atObject f [key]) ms)
  | .one, v => atObject f [] v
  | .list, .array xs => .array (xs.mapIdx fun i => atObject f [toString i])
  | .oneOrList, .array xs => .array (xs.mapIdx fun i => atObject f [toString i])
  | .oneOrList, v => atObject f [] v
  | _, v => v

/-- The value of a member with the objects in it replaced, if its key is one of the keywords. -/
def replaceUnder (keywords : List (String × Shape)) (f : List String → Json → Json) (key : String)
    (v : Json) : Json :=
  match keywords.lookup key with
  | none => v
  | some shape => shape.replace (fun segments => f (key :: segments)) v

/-- The part that is an object is replaced where it stands. -/
theorem Shape.follow?_replace {f : List String → Json → Json} {segments : List String} {part : Json}
    (hp : (segments, part) ∈ shape.parts v) (hd : v.Distinct) (ho : part.isObject = true) :
    (shape.replace f v).follow? segments = some (f segments part) := by
  have hself : (segments, part) ∈ [([], v)] →
      (atObject f [] v).follow? segments = some (f segments part) := by
    intro h
    obtain ⟨rfl, rfl⟩ := Prod.mk.inj (List.mem_singleton.1 h)
    rw [atObject, if_pos ho]
    rfl
  have hitems : ∀ {xs}, (segments, part) ∈ Shape.indexed 0 xs →
      (Json.array (xs.mapIdx fun i => atObject f [toString i])).follow? segments =
        some (f segments part) := by
    intro xs h
    obtain ⟨i, rfl, hi⟩ := Shape.of_mem_indexed h
    rw [Nat.zero_add, Json.follow?, Json.child?_toString, List.getElem?_mapIdx, hi, Option.map_some,
      atObject, if_pos ho]
    rfl
  unfold Shape.parts at hp
  split at hp
  · rename_i named
    obtain ⟨⟨key, x⟩, hm, heq⟩ := List.mem_map.1 hp
    obtain ⟨rfl, rfl⟩ := Prod.mk.inj heq
    rw [Shape.replace, Json.follow?, Json.child?, Members.lookup_mapValues,
      Members.lookup_of_mem (Json.distinct_object.1 hd).1 hm, Option.map_some, atObject, if_pos ho]
    rfl
  · exact hself hp
  · exact hitems hp
  · exact hitems hp
  · rename_i harray
    cases v with
    | array xs => exact absurd rfl (harray xs)
    | _ => exact hself hp
  · cases hp

/-! ## Calls -/

/-- The objects among parts of a keyword's value, each with its pointer. -/
def callsUnder (path keyword : String) (parts : List (List String × Json)) :
    List (String × Json) :=
  (parts.filter (·.2.isObject)).map fun p => (Pointer.build path (keyword :: p.1), p.2)

theorem callsUnder_cons (p : List String × Json) (parts : List (List String × Json)) :
    callsUnder path keyword (p :: parts) =
      callsUnder path keyword [p] ++ callsUnder path keyword parts := by
  rw [callsUnder, ← List.singleton_append, List.filter_append, List.map_append]
  rfl

/-- The objects among the schemas one level below a schema object, each with its pointer. -/
def calls (obj : Members) (path : String) : List (String × Json) :=
  (children obj path).filter (·.2.isObject)

theorem isSchema_of_isObject (h : v.isObject = true) : v.isSchema = true := by
  cases v with
  | object ms => rfl
  | _ => cases h

/-- The calls for some of the keywords. -/
def callsOf (keywords : List (String × Shape)) (obj : Members) (path : String) :
    List (String × Json) :=
  keywords.flatMap fun e => (obj.lookup e.1).elim [] fun v => callsUnder path e.1 (e.2.parts v)

theorem calls_eq (obj : Members) (path : String) : calls obj path = callsOf keywords obj path := by
  rw [calls, children, List.filter_flatMap]
  refine List.flatMap_congr fun e _ => ?_
  dsimp only
  cases obj.lookup e.1 with
  | none => rfl
  | some value =>
      dsimp only [Option.elim_some, callsUnder]
      rw [List.filter_filterMap, ← List.filterMap_eq_map, List.filterMap_filter]
      refine List.filterMap_congr fun p _ => ?_
      cases ho : p.2.isObject with
      | false => cases hs : p.2.isSchema <;> simp [ho]
      | true => simp [isSchema_of_isObject ho, ho]

/-- The calls depend on what is looked up under the keywords alone. -/
theorem callsOf_congr {ks : List (String × Shape)} {ns : Members}
    (h : ∀ e ∈ ks, ns.lookup e.1 = ms.lookup e.1) : callsOf ks ns path = callsOf ks ms path :=
  List.flatMap_congr fun e he => by rw [h e he]

theorem Shape.nodup_indexed (start : Nat) (xs : List Json) :
    ((Shape.indexed start xs).map (·.1)).Nodup := by
  induction xs generalizing start with
  | nil => exact List.nodup_nil
  | cons x rest ih =>
      refine List.nodup_cons.2 ⟨fun hmem => ?_, ih (start + 1)⟩
      obtain ⟨p, hp, heq⟩ := List.mem_map.1 hmem
      obtain ⟨i, hi, -⟩ := Shape.of_mem_indexed hp
      have htext := List.cons.inj (heq.symm.trans hi)
      have := Json.toString_injective htext.1
      omega

/-- No two parts of a keyword's value stand at the same place. -/
theorem Shape.nodup_parts (shape : Shape) (hd : v.Distinct) :
    ((shape.parts v).map (·.1)).Nodup := by
  unfold Shape.parts
  split
  · rw [List.map_map]
    have hkeys := (Json.distinct_object.1 hd).1
    exact List.Nodup.of_map List.head! (by simpa [Function.comp_def, keys] using hkeys)
  · exact List.nodup_singleton _
  · exact Shape.nodup_indexed 0 _
  · exact Shape.nodup_indexed 0 _
  · exact List.nodup_singleton _
  · exact List.nodup_nil

/-- No two calls are at the same pointer. -/
theorem nodup_calls {obj : Members} (hd : (Json.object obj).Distinct) (path : String) :
    ((calls obj path).map (·.1)).Nodup := by
  have hmem : ∀ {e : String × Shape} {c}, c ∈ ((obj.lookup e.1).elim []
      fun v => callsUnder path e.1 (e.2.parts v)) → ∃ p : List String × Json,
        c = (Pointer.build path (e.1 :: p.1), p.2) := by
    intro e c hc
    cases hl : obj.lookup e.1 with
    | none => rw [hl] at hc; cases hc
    | some v =>
        rw [hl] at hc
        obtain ⟨p, -, rfl⟩ := List.mem_map.1 hc
        exact ⟨p, rfl⟩
  rw [calls_eq, callsOf, List.map_flatMap]
  refine List.nodup_flatMap.2 ⟨fun e _ => ?_, ?_⟩
  · cases hl : obj.lookup e.1 with
    | none => exact List.nodup_nil
    | some v =>
        have hparts := (e.2.nodup_parts (hd.lookup hl)).sublist
          (List.Sublist.map _ (List.filter_sublist (p := fun p => p.2.isObject)))
        have hinj : Function.Injective fun steps : List String =>
            Pointer.build path (e.1 :: steps) := fun _ _ h =>
          (List.cons.inj (Pointer.build_injective h)).2
        simpa [callsUnder, Function.comp_def] using hparts.map hinj
  · have hkeys : keywords.Pairwise fun e e' => e.1 ≠ e'.1 := by decide
    refine hkeys.imp fun hne => List.disjoint_left.2 fun pointer h h' => ?_
    obtain ⟨c, hc, rfl⟩ := List.mem_map.1 h
    obtain ⟨c', hc', heq⟩ := List.mem_map.1 h'
    obtain ⟨p, rfl⟩ := hmem hc
    obtain ⟨p', rfl⟩ := hmem hc'
    exact hne (List.cons.inj (Pointer.build_injective heq.symm)).1

section Calls

variable {σ ε α β : Type} {visit : String → Json → ExceptT ε (StateM σ) Json}
  {result : String → Json → Json} {cs ds made : List (String × Json)} {s t u : σ} {e : ε}

/-- The visit succeeds on the calls in turn, with the given results. -/
inductive Succeeds (visit : String → Json → ExceptT ε (StateM σ) Json)
    (result : String → Json → Json) : List (String × Json) → σ → σ → Prop where
  | nil {s : σ} : Succeeds visit result [] s s
  | cons {c : String × Json} {cs : List (String × Json)} {s t u : σ}
      (h : (visit c.1 c.2).run s = (.ok (result c.1 c.2), t))
      (hs : Succeeds visit result cs t u) : Succeeds visit result (c :: cs) s u

/-- The visit succeeds on the calls in turn up to one that fails; those that are made. -/
inductive Breaks (visit : String → Json → ExceptT ε (StateM σ) Json)
    (result : String → Json → Json) :
    List (String × Json) → σ → List (String × Json) → ε → σ → Prop where
  | here {c : String × Json} {cs : List (String × Json)} {s t : σ} {e : ε}
      (h : (visit c.1 c.2).run s = (.error e, t)) : Breaks visit result (c :: cs) s [c] e t
  | later {c : String × Json} {cs made : List (String × Json)} {s t u : σ} {e : ε}
      (h : (visit c.1 c.2).run s = (.ok (result c.1 c.2), t))
      (hs : Breaks visit result cs t made e u) : Breaks visit result (c :: cs) s (c :: made) e u

theorem Succeeds.of_append (h : Succeeds visit result (cs ++ ds) s u) :
    ∃ t, Succeeds visit result cs s t ∧ Succeeds visit result ds t u := by
  induction cs generalizing s with
  | nil => exact ⟨s, .nil, h⟩
  | cons c cs ih =>
      cases h with
      | cons hc hs =>
          obtain ⟨t, hcs, hds⟩ := ih hs
          exact ⟨t, .cons hc hcs, hds⟩

theorem Breaks.of_append (h : Breaks visit result (cs ++ ds) s made e u) :
    Breaks visit result cs s made e u ∨
      ∃ t more, Succeeds visit result cs s t ∧ Breaks visit result ds t more e u := by
  induction cs generalizing s made with
  | nil => exact .inr ⟨s, made, .nil, h⟩
  | cons c cs ih =>
      cases h with
      | here hc => exact .inl (.here hc)
      | later hc hs =>
          rcases ih hs with hs | ⟨t, more, hcs, hds⟩
          · exact .inl (.later hc hs)
          · exact .inr ⟨t, more, .cons hc hcs, hds⟩

/-- The calls that are made are those up to the one that fails. -/
theorem Breaks.exists_failed (h : Breaks visit result cs s made e t) :
    ∃ done failed rest u, cs = done ++ failed :: rest ∧ made = done ++ [failed] ∧
      Succeeds visit result done s u ∧ (visit failed.1 failed.2).run u = (.error e, t) := by
  induction h with
  | @here c cs s t e hc => exact ⟨[], c, cs, s, rfl, rfl, .nil, hc⟩
  | @later c cs made s t u e hc _ ih =>
      obtain ⟨done, failed, rest, v, rfl, rfl, hs, hf⟩ := ih
      exact ⟨c :: done, failed, rest, v, rfl, rfl, .cons hc hs, hf⟩

theorem Succeeds.congr {result' : String → Json → Json} (h : Succeeds visit result cs s t)
    (hr : ∀ c ∈ cs, result' c.1 = result c.1) : Succeeds visit result' cs s t := by
  induction h with
  | nil => exact .nil
  | cons hc _ ih =>
      obtain ⟨hfirst, hrest⟩ := List.forall_mem_cons.1 hr
      exact .cons (hfirst ▸ hc) (ih hrest)

theorem Breaks.congr {result' : String → Json → Json} (h : Breaks visit result cs s made e t)
    (hr : ∀ c ∈ cs, result' c.1 = result c.1) : Breaks visit result' cs s made e t := by
  induction h with
  | here hc => exact .here hc
  | later hc _ ih =>
      obtain ⟨hfirst, hrest⟩ := List.forall_mem_cons.1 hr
      exact .later (hfirst ▸ hc) (ih hrest)

/-- Calls at different pointers succeed, or one of them fails. -/
theorem exists_succeeds_or_breaks (visit : String → Json → ExceptT ε (StateM σ) Json)
    (hn : (cs.map (·.1)).Nodup) (s : σ) : ∃ result : String → Json → Json,
      (∃ t, Succeeds visit result cs s t) ∨ ∃ made e t, Breaks visit result cs s made e t := by
  induction cs generalizing s with
  | nil => exact ⟨fun _ v => v, .inl ⟨s, .nil⟩⟩
  | cons c cs ih =>
      obtain ⟨hnew, hn⟩ := List.nodup_cons.1 hn
      cases hrun : (visit c.1 c.2).run s with
      | mk r t =>
          cases r with
          | error e => exact ⟨fun _ v => v, .inr ⟨[c], e, t, .here hrun⟩⟩
          | ok w =>
              obtain ⟨result, hrest⟩ := ih hn t
              have hr : ∀ d ∈ cs, Function.update result c.1 (fun _ => w) d.1 = result d.1 :=
                fun d hd => Function.update_of_ne (fun heq => hnew (List.mem_map.2 ⟨d, hd, heq⟩)) _ _
              have hc : (visit c.1 c.2).run s =
                  (.ok (Function.update result c.1 (fun _ => w) c.1 c.2), t) := by
                rw [Function.update_self, hrun]
              refine ⟨Function.update result c.1 fun _ => w, ?_⟩
              rcases hrest with ⟨u, hs⟩ | ⟨made, e, u, hs⟩
              · exact .inl ⟨u, .cons hc (hs.congr hr)⟩
              · exact .inr ⟨c :: made, e, u, .later hc (hs.congr hr)⟩

/-! ## A record of the calls -/

/-- The visit with a record of the calls that are made. -/
def logged (visit : String → Json → ExceptT ε (StateM σ) Json) (pointer : String) (v : Json) :
    ExceptT ε (StateM (List (String × Json) × σ)) Json :=
  ExceptT.mk fun st =>
    let (r, t) := (visit pointer v).run st.2
    (r, (st.1 ++ [(pointer, v)], t))

theorem run_logged {pointer : String} {v : Json} {r : Except ε Json}
    (h : (visit pointer v).run s = (r, t)) (log : List (String × Json)) :
    (logged visit pointer v).run (log, s) = (r, (log ++ [(pointer, v)], t)) := by
  change (((visit pointer v).run s).1, _, ((visit pointer v).run s).2) = _
  rw [h]

theorem Succeeds.logged (h : Succeeds visit result cs s t) (log : List (String × Json)) :
    Succeeds (Schema.logged visit) result cs (log, s) (log ++ cs, t) := by
  induction h generalizing log with
  | nil => simpa using Succeeds.nil
  | @cons c cs s t u hc _ ih =>
      rw [List.append_cons]
      exact .cons (run_logged hc log) (ih (log ++ [c]))

theorem Breaks.logged (h : Breaks visit result cs s made e t) (log : List (String × Json)) :
    Breaks (Schema.logged visit) result cs (log, s) made e (log ++ made, t) := by
  induction h generalizing log with
  | here hc => exact .here (run_logged hc log)
  | @later c cs made s t u e hc _ ih =>
      rw [List.append_cons]
      exact .later (run_logged hc log) (ih (log ++ [c]))

/-! ## Computations that make calls -/

/-- The computation makes the calls in turn; it gives `a` if they succeed, and fails with the first
that fails. -/
structure Makes (visit : String → Json → ExceptT ε (StateM σ) Json) (result : String → Json → Json)
    (x : ExceptT ε (StateM σ) α) (cs : List (String × Json)) (a : α) : Prop where
  ok : ∀ {s t}, Succeeds visit result cs s t → x.run s = (.ok a, t)
  error : ∀ {s made e t}, Breaks visit result cs s made e t → x.run s = (.error e, t)

theorem makes_pure (a : α) : Makes visit result (pure a) [] a where
  ok h := by cases h; rfl
  error h := by cases h

theorem makes_visit (pointer : String) (v : Json) :
    Makes visit result (visit pointer v) [(pointer, v)] (result pointer v) where
  ok h := by
    cases h with
    | cons hc hs => cases hs; exact hc
  error h := by
    cases h with
    | here hc => exact hc
    | later _ hs => cases hs

theorem run_bind_ok {x : ExceptT ε (StateM σ) α} {f : α → ExceptT ε (StateM σ) β} {a : α}
    (h : x.run s = (.ok a, t)) : (x >>= f).run s = (f a).run t := by
  change ExceptT.bindCont f (x.run s).1 (x.run s).2 = _
  rw [h]
  rfl

theorem run_bind_error {x : ExceptT ε (StateM σ) α} {f : α → ExceptT ε (StateM σ) β}
    (h : x.run s = (.error e, t)) : (x >>= f).run s = (.error e, t) := by
  change ExceptT.bindCont f (x.run s).1 (x.run s).2 = _
  rw [h]
  rfl

theorem Makes.bind {x : ExceptT ε (StateM σ) α} {f : α → ExceptT ε (StateM σ) β} {a : α} {b : β}
    (hx : Makes visit result x cs a) (hf : Makes visit result (f a) ds b) :
    Makes visit result (x >>= f) (cs ++ ds) b where
  ok h := by
    obtain ⟨t, hcs, hds⟩ := h.of_append
    rw [run_bind_ok (hx.ok hcs)]
    exact hf.ok hds
  error h := by
    rcases h.of_append with hcs | ⟨t, more, hcs, hds⟩
    · exact run_bind_error (hx.error hcs)
    · rw [run_bind_ok (hx.ok hcs)]
      exact hf.error hds

theorem Makes.map {x : ExceptT ε (StateM σ) α} {a : α} (hx : Makes visit result x cs a)
    (f : α → β) : Makes visit result (f <$> x) cs (f a) := by
  rw [← List.append_nil cs, map_eq_pure_bind]
  exact hx.bind (makes_pure (f a))

/-! ## The traversal of one keyword -/

/-- The visit of a part of the keyword's value. -/
def visitPart (visit : String → Json → ExceptT ε (StateM σ) Json) (path keyword : String)
    (segments : List String) : Json → ExceptT ε (StateM σ) Json :=
  visit (Pointer.build path (keyword :: segments))

/-- The result of the call for a part. -/
def resultAt (result : String → Json → Json) (path : String) (steps : List String) : Json → Json :=
  result (Pointer.build path steps)

theorem makes_visitObject (segments : List String) (v : Json) :
    Makes visit result (visitObject (visitPart visit path keyword) segments v)
      (callsUnder path keyword [(segments, v)])
      (atObject (fun segments => resultAt result path (keyword :: segments)) segments v) := by
  unfold visitObject atObject
  cases ho : v.isObject with
  | false => simpa [callsUnder, ho] using makes_pure v
  | true =>
      simpa [callsUnder, ho, visitPart, resultAt] using
        makes_visit (Pointer.build path (keyword :: segments)) v

theorem makes_traverseItems (start : Nat) (xs : List Json) :
    Makes visit result (traverseItems (visitPart visit path keyword) start xs)
      (callsUnder path keyword (Shape.indexed start xs))
      (xs.mapIdx fun i => atObject (fun segments => resultAt result path (keyword :: segments))
        [toString (start + i)]) := by
  induction xs generalizing start with
  | nil => exact makes_pure []
  | cons x rest ih =>
      have hrest := (ih (start + 1)).map (atObject (fun segments =>
        resultAt result path (keyword :: segments)) [toString start] x :: ·)
      rw [traverseItems, Shape.indexed, callsUnder_cons, List.mapIdx_cons]
      refine (makes_visitObject [toString start] x).bind ?_
      simp only [Nat.add_assoc, Nat.add_comm 1] at hrest
      exact hrest

theorem makes_traverseMembers (named : Members) :
    Makes visit result (traverseMembers (visitPart visit path keyword) named)
      (callsUnder path keyword (named.map fun m => ([m.1], m.2)))
      (mapValues (fun key => atObject (fun segments => resultAt result path (keyword :: segments))
        [key]) named) := by
  induction named with
  | nil => exact makes_pure []
  | cons m rest ih =>
      rw [traverseMembers, List.map_cons, callsUnder_cons]
      exact (makes_visitObject [m.1] m.2).bind (ih.map ((m.1, _) :: ·))

theorem makes_traverse (shape : Shape) (v : Json) :
    Makes visit result (shape.traverse (visitPart visit path keyword) v)
      (callsUnder path keyword (shape.parts v))
      (shape.replace (fun segments => resultAt result path (keyword :: segments)) v) := by
  have hitems : ∀ xs, Makes visit result
      (Json.array <$> traverseItems (visitPart visit path keyword) 0 xs)
      (callsUnder path keyword (Shape.indexed 0 xs))
      (.array (xs.mapIdx fun i => atObject
        (fun segments => resultAt result path (keyword :: segments)) [toString i])) := fun xs => by
    simpa using (makes_traverseItems 0 xs).map Json.array
  cases shape with
  | byName =>
      cases v with
      | object named => exact (makes_traverseMembers named).map Json.object
      | _ => exact makes_pure _
  | one => exact makes_visitObject [] v
  | list =>
      cases v with
      | array xs => exact hitems xs
      | _ => exact makes_pure _
  | oneOrList =>
      cases v with
      | array xs => exact hitems xs
      | _ => exact makes_visitObject [] _

/-! ## The traversal of an object -/

theorem traverseKeywords_none {more : List (String × Shape)} (hl : ms.lookup keyword = none) :
    traverseKeywords visit path ((keyword, shape) :: more) ms =
      traverseKeywords visit path more ms := by
  rw [traverseKeywords, hl]

theorem traverseKeywords_ok {more : List (String × Shape)} {w : Json} {t : σ}
    (hl : ms.lookup keyword = some v)
    (hrun : (shape.traverse (visitPart visit path keyword) v).run s = (.ok w, t)) :
    (traverseKeywords visit path ((keyword, shape) :: more) ms).run s =
      (traverseKeywords visit path more ((ms.remove keyword).put keyword w)).run t := by
  rw [traverseKeywords, hl]
  dsimp only
  rw [StateT.run_bind]
  change Bind.bind ((shape.traverse (visitPart visit path keyword) v).run s) _ = _
  rw [hrun]
  rfl

theorem traverseKeywords_error {more : List (String × Shape)} {e : ε} {t : σ}
    (hl : ms.lookup keyword = some v)
    (hrun : (shape.traverse (visitPart visit path keyword) v).run s = (.error e, t)) :
    (traverseKeywords visit path ((keyword, shape) :: more) ms).run s =
      ((some e, ms.remove keyword), t) := by
  rw [traverseKeywords, hl]
  dsimp only
  rw [StateT.run_bind]
  change Bind.bind ((shape.traverse (visitPart visit path keyword) v).run s) _ = _
  rw [hrun]
  rfl

theorem replaceUnder_cons_of_ne {more : List (String × Shape)} {f : List String → Json → Json}
    {key : String} (h : key ≠ keyword) :
    replaceUnder ((keyword, shape) :: more) f key = replaceUnder more f key := by
  funext v
  rw [replaceUnder, List.lookup_cons, beq_false_of_ne h]
  rfl

theorem replaceUnder_of_not_mem {more : List (String × Shape)} {f : List String → Json → Json}
    {key : String} (h : key ∉ more.map (·.1)) (v : Json) : replaceUnder more f key v = v := by
  have hnone : more.lookup key = none := List.lookup_eq_none_iff.2 fun e he =>
    bne_iff_ne.2 fun heq => h (List.mem_map.2 ⟨e, he, heq.symm⟩)
  rw [replaceUnder, hnone]

/-- A keyword that is taken out and put back with another value: the members with that value, and
the keyword moved to the end. -/
theorem put_remove_replace {more : List (String × Shape)} {f : List String → Json → Json}
    (hk : (keys ms).Nodup) (hnew : keyword ∉ more.map (·.1)) (hl : ms.lookup keyword = some v) :
    mapValues (replaceUnder more f) ((ms.remove keyword).put keyword
        (shape.replace (fun segments => f (keyword :: segments)) v)) =
      moveLast (mapValues (replaceUnder ((keyword, shape) :: more) f) ms) keyword := by
  have hself : replaceUnder ((keyword, shape) :: more) f keyword v =
      shape.replace (fun segments => f (keyword :: segments)) v := by
    rw [replaceUnder, List.lookup_cons_self]
  rw [moveLast, Members.lookup_mapValues, hl, Option.map_some, Option.elim_some, hself,
    Members.remove_mapValues, ← Members.put_mapValues, replaceUnder_of_not_mem hnew]
  congr 1
  refine Members.mapValues_congr fun key hkey => (replaceUnder_cons_of_ne ?_).symm
  exact fun heq => Members.not_mem_keys_remove hk (heq ▸ hkey)

theorem callsOf_cons_of_lookup {more : List (String × Shape)} (hl : ms.lookup keyword = some v) :
    callsOf ((keyword, shape) :: more) ms path =
      callsUnder path keyword (shape.parts v) ++ callsOf more ms path := by
  rw [callsOf, List.flatMap_cons, hl]
  rfl

/-- The calls for other keywords are the same after one is put back. -/
theorem callsOf_put_remove {more : List (String × Shape)} (hk : (keys ms).Nodup)
    (hnew : keyword ∉ more.map (·.1)) (w : Json) (path : String) :
    callsOf more ((ms.remove keyword).put keyword w) path = callsOf more ms path :=
  callsOf_congr fun e he => by
    have hne : e.1 ≠ keyword := fun heq => hnew (List.mem_map.2 ⟨e, he, heq⟩)
    rw [Members.lookup_put_of_ne hne, Members.lookup_remove_of_ne hk hne]

/-- The traversal makes the calls in turn. It moves each keyword to the end, with the objects in its
value replaced, or ends with the error of the first call that fails. -/
theorem traverseKeywords_makes {ks : List (String × Shape)} (hks : (ks.map (·.1)).Nodup)
    (hk : (keys ms).Nodup) (s : σ) :
    (∀ t, Succeeds visit result (callsOf ks ms path) s t →
      (traverseKeywords visit path ks ms).run s = ((none, ks.foldl (fun ms e => moveLast ms e.1)
        (mapValues (replaceUnder ks (resultAt result path)) ms)), t)) ∧
    ∀ made e t, Breaks visit result (callsOf ks ms path) s made e t →
      ∃ left, (traverseKeywords visit path ks ms).run s = ((some e, left), t) := by
  induction ks generalizing ms s with
  | nil =>
      refine ⟨fun t h => ?_, fun made e t h => by cases h⟩
      cases h
      rw [List.foldl_nil, Members.mapValues_self fun key v =>
        replaceUnder_of_not_mem List.not_mem_nil v]
      rfl
  | cons entry more ih =>
      obtain ⟨keyword, shape⟩ := entry
      obtain ⟨hnew, hmore⟩ := List.nodup_cons.1 hks
      cases hl : ms.lookup keyword with
      | none =>
          have hkeys : mapValues (replaceUnder ((keyword, shape) :: more) (resultAt result path)) ms =
              mapValues (replaceUnder more (resultAt result path)) ms :=
            Members.mapValues_congr fun key hkey => replaceUnder_cons_of_ne
              fun heq => Members.lookup_eq_none_iff.1 hl (heq ▸ hkey)
          rw [traverseKeywords_none hl, callsOf, List.flatMap_cons, hl, List.foldl_cons, hkeys,
            moveLast, Members.lookup_mapValues, hl]
          exact ih hmore hk s
      | some v =>
          have hput : ∀ w, (keys ((ms.remove keyword).put keyword w)).Nodup := fun w =>
            Members.nodup_keys_put (Members.nodup_keys_remove hk keyword) _ _
          have hmakes : Makes visit result (shape.traverse (visitPart visit path keyword) v) _ _ :=
            makes_traverse shape v
          rw [callsOf_cons_of_lookup hl, List.foldl_cons, ← put_remove_replace hk hnew hl]
          refine ⟨fun u h => ?_, fun made e u h => ?_⟩
          · obtain ⟨t, hcs, hds⟩ := h.of_append
            rw [traverseKeywords_ok hl (hmakes.ok hcs)]
            exact (ih hmore (hput _) t).1 u (callsOf_put_remove hk hnew _ path ▸ hds)
          · rcases h.of_append with hcs | ⟨t, made, hcs, hds⟩
            · exact ⟨_, traverseKeywords_error hl (hmakes.error hcs)⟩
            · rw [traverseKeywords_ok hl (hmakes.ok hcs)]
              exact (ih hmore (hput _) t).2 made e u (callsOf_put_remove hk hnew _ path ▸ hds)

/-! ## Both ways through an object -/

/-- All calls succeed: they are those for the objects among the children, in order, and each object
is replaced by the result of its call, at its place. Nothing else changes. -/
structure Completed (visit : String → Json → ExceptT ε (StateM σ) Json)
    (result : String → Json → Json) (obj : Members) (path : String) (s t : σ) (obj' : Members) :
    Prop where
  succeeds : Succeeds visit result (calls obj path) s t
  run : (traverseChildren visit path obj).run s = ((none, obj'), t)
  made : (traverseChildren (logged visit) path obj).run ([], s) =
    ((none, obj'), (calls obj path, t))
  keys : (keys obj').Perm (keys obj)
  members : ∀ key, obj'.lookup key =
    (obj.lookup key).map (replaceUnder keywords (resultAt result path) key)
  parts : ∀ steps v, Part obj steps v → v.isObject = true →
    (Json.object obj').follow? steps = some (result (Pointer.build path steps) v)

/-- A call fails: the calls before it succeed, none is made after it, and its error is that of the
traversal. -/
structure Stopped (visit : String → Json → ExceptT ε (StateM σ) Json)
    (result : String → Json → Json) (obj : Members) (path : String) (s : σ)
    (done : List (String × Json)) (failed : String × Json) (e : ε) (t : σ) : Prop where
  order : done ++ [failed] <+: calls obj path
  succeeds : ∃ u, Succeeds visit result done s u ∧ (visit failed.1 failed.2).run u = (.error e, t)
  run : ∃ left, (traverseChildren visit path obj).run s = ((some e, left), t)
  made : ∃ left, (traverseChildren (logged visit) path obj).run ([], s) =
    ((some e, left), (done ++ [failed], t))

variable {obj : Members}

theorem completed_of_succeeds (hd : (Json.object obj).Distinct)
    (h : Succeeds visit result (calls obj path) s t) :
    ∃ obj', Completed visit result obj path s t obj' := by
  have hkeywords : (keywords.map (·.1)).Nodup := by decide
  have hk := (Json.distinct_object.1 hd).1
  have hlog := h.logged []
  rw [List.nil_append] at hlog
  have hlookup : ∀ key, (settle (mapValues (replaceUnder keywords (resultAt result path)) obj)).lookup
      key = (obj.lookup key).map (replaceUnder keywords (resultAt result path) key) := by
    intro key
    have hkeys : (keys (mapValues (replaceUnder keywords (resultAt result path)) obj)).Nodup := by
      rwa [Members.keys_mapValues]
    rw [Members.lookup_perm (perm_settle hkeys) (((perm_settle hkeys).map _).nodup_iff.2 hkeys),
      Members.lookup_mapValues]
  refine ⟨settle (mapValues (replaceUnder keywords (resultAt result path)) obj), h, ?_, ?_, ?_,
    hlookup, ?_⟩
  · rw [settle_eq]
    exact (traverseKeywords_makes hkeywords hk s).1 t (calls_eq obj path ▸ h)
  · rw [settle_eq]
    exact (traverseKeywords_makes hkeywords hk _).1 _ (calls_eq obj path ▸ hlog)
  · rw [settle_mapValues, Members.keys_mapValues]
    exact (perm_settle hk).map _
  · rintro _ v ⟨keyword, shape, value, segments, hmem, hl, hp, rfl⟩ ho
    have hshape : keywords.lookup keyword = some shape := shape?_of_mem hmem
    rw [Json.follow?, Json.child?, hlookup, hl, Option.map_some, Option.bind_some, replaceUnder,
      hshape]
    exact Shape.follow?_replace hp (hd.lookup hl) ho

theorem stopped_of_breaks (hd : (Json.object obj).Distinct)
    (h : Breaks visit result (calls obj path) s made e t) :
    ∃ done failed, Stopped visit result obj path s done failed e t := by
  have hkeywords : (keywords.map (·.1)).Nodup := by decide
  have hk := (Json.distinct_object.1 hd).1
  have hlog := h.logged []
  rw [List.nil_append] at hlog
  obtain ⟨done, failed, rest, u, hcalls, rfl, hdone, hfailed⟩ := h.exists_failed
  refine ⟨done, failed, ⟨rest, by rw [hcalls, List.append_assoc]; rfl⟩, ⟨u, hdone, hfailed⟩, ?_, ?_⟩
  · exact (traverseKeywords_makes hkeywords hk s).2 _ e t (calls_eq obj path ▸ h)
  · exact (traverseKeywords_makes hkeywords hk _).2 _ e _ (calls_eq obj path ▸ hlog)

/-- The traversal that replaces the schemas one level down makes the calls that `children` lists, the
objects among them, in that order. If all succeed, their results are put in place and nothing else
changes; otherwise the first that fails is the last that is made. -/
theorem traverseChildren_calls (hd : (Json.object obj).Distinct)
    (visit : String → Json → ExceptT ε (StateM σ) Json) (path : String) (s : σ) :
    ∃ result : String → Json → Json,
      (∃ t obj', Completed visit result obj path s t obj') ∨
        ∃ done failed e t, Stopped visit result obj path s done failed e t := by
  obtain ⟨result, ⟨t, hs⟩ | ⟨made, e, t, hb⟩⟩ :=
    exists_succeeds_or_breaks visit (nodup_calls hd path) s
  · obtain ⟨obj', hobj⟩ := completed_of_succeeds hd hs
    exact ⟨result, .inl ⟨t, obj', hobj⟩⟩
  · obtain ⟨done, failed, hstop⟩ := stopped_of_breaks hd hb
    exact ⟨result, .inr ⟨done, failed, e, t, hstop⟩⟩

end Calls

/-- An object and a boolean under each of two keywords. -/
def twoKeywords : Members :=
  [("items", .array [.object [], .bool false]),
    ("title", .string "pair"),
    ("properties", .object [("b", .object []), ("a", .bool true)])]

/-- A visit that puts the pointer of each schema in its place. -/
def tag (pointer : String) (_ : Json) : ExceptT Unit (StateM Unit) Json := pure (.string pointer)

/-- The properties are visited before the items that stand before them, and the booleans not at
all. -/
theorem traverseChildren_calls_twoKeywords :
    (Json.object twoKeywords).Distinct ∧ ∃ obj',
      (traverseChildren (logged tag) "#" twoKeywords).run ([], ()) =
        ((none, obj'), ([("#/properties/b", .object []), ("#/items/0", .object [])], ())) ∧
      obj'.lookup "title" = some (.string "pair") := by
  have hd : (Json.object twoKeywords).Distinct := by
    simp [twoKeywords, Json.Distinct, Json.DistinctMembers, Json.DistinctItems, Members.keys]
  have hcalls : calls twoKeywords "#" =
      [("#/properties/b", .object []), ("#/items/0", .object [])] := by decide
  obtain ⟨result, ⟨t, obj', hobj⟩ | ⟨done, failed, e, t, hstop⟩⟩ :=
    traverseChildren_calls hd tag "#" ()
  · refine ⟨hd, obj', hcalls ▸ hobj.made, hobj.members "title"⟩
  · obtain ⟨u, -, hfailed⟩ := hstop.succeeds
    cases hfailed

end Schema

end Typewright
