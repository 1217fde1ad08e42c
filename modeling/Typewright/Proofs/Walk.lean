import Mathlib.Logic.Relation
import Typewright.Walk

/-!
# What walks visit

A walk visits each thing at most once. It visits what it starts from, and with a thing all of its
neighbours, as far as these are fresh. Whatever holds of the start and passes on to neighbours holds
of all that is visited. A walk in postorder visits each thing after its neighbours, but for those
that lead back to it, and after all that it leads to where it is on no cycle (`belowFirst_postorder`).
-/

namespace Typewright.Walk

variable {α : Type} [DecidableEq α] {next : α → List α} {fresh : List α}

/-! ## Preorder -/

theorem nodup_eraseDups (l : List α) : l.eraseDups.Nodup := by
  match l with
  | [] => simp
  | a :: rest =>
      rw [List.eraseDups_cons, List.nodup_cons]
      refine ⟨by simp, ?_⟩
      have : (rest.filter fun b => !b == a).length ≤ rest.length := List.length_filter_le ..
      exact nodup_eraseDups _
termination_by l.length

theorem mem_fresh_of_mem_preorder {pending : List α} {a : α}
    (h : a ∈ preorder next fresh pending) : a ∈ fresh := by
  fun_induction preorder next fresh pending with
  | case1 => simp at h
  | case2 fresh b rest hb ih =>
      rcases List.mem_cons.1 h with rfl | h
      · exact hb
      · exact List.mem_of_mem_erase (ih h)
  | case3 fresh b rest hb ih => exact ih h

theorem nodup_preorder {pending : List α} (hf : fresh.Nodup) :
    (preorder next fresh pending).Nodup := by
  fun_induction preorder next fresh pending with
  | case1 => exact List.nodup_nil
  | case2 fresh b rest hb ih =>
      refine List.nodup_cons.2 ⟨fun h => ?_, ih (hf.erase b)⟩
      have hmem := mem_fresh_of_mem_preorder h
      exact ((hf.mem_erase_iff).1 hmem).1 rfl
  | case3 fresh b rest hb ih => exact ih hf

theorem mem_preorder_of_mem {pending : List α} {a : α} (ha : a ∈ pending) (hf : a ∈ fresh) :
    a ∈ preorder next fresh pending := by
  fun_induction preorder next fresh pending with
  | case1 => simp at ha
  | case2 fresh b rest hb ih =>
      by_cases hab : a = b
      · exact hab ▸ List.mem_cons_self
      · have hrest : a ∈ rest := (List.mem_cons.1 ha).resolve_left hab
        exact List.mem_cons_of_mem _
          (ih (List.mem_append_right _ hrest) ((List.mem_erase_of_ne hab).2 hf))
  | case3 fresh b rest hb ih =>
      rcases List.mem_cons.1 ha with rfl | ha
      · exact absurd hf hb
      · exact ih ha hf

theorem next_mem_preorder {pending : List α} {a b : α} (ha : a ∈ preorder next fresh pending)
    (hb : b ∈ next a) (hf : b ∈ fresh) : b ∈ preorder next fresh pending := by
  fun_induction preorder next fresh pending with
  | case1 => simp at ha
  | case2 fresh c rest hc ih =>
      by_cases hbc : b = c
      · exact hbc ▸ List.mem_cons_self
      · have hf' : b ∈ fresh.erase c := (List.mem_erase_of_ne hbc).2 hf
        rcases List.mem_cons.1 ha with rfl | ha
        · exact List.mem_cons_of_mem _ (mem_preorder_of_mem (List.mem_append_left _ hb) hf')
        · exact List.mem_cons_of_mem _ (ih ha hf')
  | case3 fresh c rest hc ih => exact ih ha hf

/-- What holds of the start and passes on to neighbours holds of all that is visited. -/
theorem preorder_induction {P : α → Prop} {pending : List α} (hp : ∀ a ∈ pending, P a)
    (hn : ∀ a, P a → ∀ b ∈ next a, P b) : ∀ a ∈ preorder next fresh pending, P a := by
  fun_induction preorder next fresh pending with
  | case1 => simp
  | case2 fresh b rest hb ih =>
      have hPb : P b := hp b List.mem_cons_self
      have hrest : ∀ a ∈ next b ++ rest, P a := by
        intro a ha
        rcases List.mem_append.1 ha with ha | ha
        · exact hn b hPb a ha
        · exact hp a (List.mem_cons_of_mem _ ha)
      intro a ha
      rcases List.mem_cons.1 ha with rfl | ha
      · exact hPb
      · exact ih hrest a ha
  | case3 fresh b rest hb ih => exact ih fun a ha => hp a (List.mem_cons_of_mem _ ha)

/-- A walk does not depend on how things are called. -/
theorem preorder_map {β : Type} [DecidableEq β] {next' : β → List β} {f : α → β} {P : α → Prop}
    (hnext : ∀ a, P a → ∀ b ∈ next a, P b) (hmap : ∀ a, P a → next' (f a) = (next a).map f)
    (hinj : ∀ a b, P a → P b → f a = f b → a = b) (pending : List α) (hp : ∀ a ∈ pending, P a)
    (hf : fresh.Nodup) {fresh' : List β} (hf' : fresh'.Nodup)
    (hfresh : ∀ a, P a → (f a ∈ fresh' ↔ a ∈ fresh)) :
    preorder next' fresh' (pending.map f) = (preorder next fresh pending).map f := by
  fun_induction preorder next fresh pending generalizing fresh' with
  | case1 => rw [List.map_nil, preorder]
  | case2 fresh a rest ha ih =>
      have hPa := hp a List.mem_cons_self
      rw [List.map_cons, List.map_cons, preorder, dif_pos ((hfresh a hPa).2 ha), hmap a hPa,
        ← List.map_append]
      refine congrArg _ (ih (fun b hb => ?_) (hf.erase a) (hf'.erase _) fun b hPb => ?_)
      · rcases List.mem_append.1 hb with hb | hb
        · exact hnext a hPa b hb
        · exact hp b (List.mem_cons_of_mem _ hb)
      · have hne : f b = f a ↔ b = a := ⟨hinj b a hPb hPa, congrArg f⟩
        rw [hf'.mem_erase_iff, hf.mem_erase_iff, hfresh b hPb, ne_eq, hne]
  | case3 fresh a rest ha ih =>
      rw [List.map_cons, preorder,
        dif_neg (mt (hfresh a (hp a List.mem_cons_self)).1 ha)]
      exact ih (fun b hb => hp b (List.mem_cons_of_mem _ hb)) hf hf' hfresh

/-! ## Postorder -/

/-- The thing of a step. -/
def Step.thing : Step α → α
  | .enter a | .leave a => a

/-- What holds of the start and passes on to neighbours holds of all that is visited. -/
theorem postorder_induction {P : α → Prop} {pending : List (Step α)}
    (hp : ∀ s ∈ pending, P s.thing) (hn : ∀ a, P a → ∀ b ∈ next a, P b) :
    ∀ a ∈ postorder next fresh pending, P a := by
  fun_induction postorder next fresh pending with
  | case1 => simp
  | case2 fresh b rest ih =>
      intro a ha
      rcases List.mem_cons.1 ha with rfl | ha
      · exact hp (.leave a) List.mem_cons_self
      · exact ih (fun s hs => hp s (List.mem_cons_of_mem _ hs)) a ha
  | case3 fresh b rest hb ih =>
      have hPb : P b := hp (.enter b) List.mem_cons_self
      refine ih fun s hs => ?_
      rcases List.mem_append.1 hs with hs | hs
      · obtain ⟨a, ha, rfl⟩ := List.mem_map.1 hs
        exact hn b hPb a ha
      · rcases List.mem_cons.1 hs with rfl | hs
        · exact hPb
        · exact hp s (List.mem_cons_of_mem _ hs)
  | case4 fresh b rest hb ih => exact ih fun s hs => hp s (List.mem_cons_of_mem _ hs)

theorem mem_of_mem_postorder {pending : List (Step α)} {a : α}
    (h : a ∈ postorder next fresh pending) : a ∈ fresh ∨ .leave a ∈ pending := by
  fun_induction postorder next fresh pending with
  | case1 => simp at h
  | case2 fresh b rest ih =>
      rcases List.mem_cons.1 h with rfl | h
      · exact .inr List.mem_cons_self
      · exact (ih h).imp_right (List.mem_cons_of_mem _)
  | case3 fresh b rest hb ih =>
      rcases ih h with h | h
      · exact .inl (List.mem_of_mem_erase h)
      · rcases List.mem_append.1 h with h | h
        · simp at h
        · rcases List.mem_cons.1 h with h | h
          · exact .inl (Step.leave.inj h ▸ hb)
          · exact .inr (List.mem_cons_of_mem _ h)
  | case4 fresh b rest hb ih => exact (ih h).imp_right (List.mem_cons_of_mem _)

theorem mem_postorder_of_leave {pending : List (Step α)} {a : α} (h : .leave a ∈ pending) :
    a ∈ postorder next fresh pending := by
  fun_induction postorder next fresh pending with
  | case1 => cases h
  | case2 fresh b rest ih =>
      rcases List.mem_cons.1 h with h | h
      · exact Step.leave.inj h ▸ List.mem_cons_self
      · exact List.mem_cons_of_mem _ (ih h)
  | case3 fresh b rest hb ih =>
      refine ih (List.mem_append_right _ (List.mem_cons_of_mem _ ?_))
      exact (List.mem_cons.1 h).resolve_left (by simp)
  | case4 fresh b rest hb ih => exact ih ((List.mem_cons.1 h).resolve_left (by simp))

theorem mem_postorder_of_enter {pending : List (Step α)} {a : α} (h : .enter a ∈ pending)
    (hf : a ∈ fresh) : a ∈ postorder next fresh pending := by
  fun_induction postorder next fresh pending with
  | case1 => cases h
  | case2 fresh b rest ih =>
      exact List.mem_cons_of_mem _ (ih ((List.mem_cons.1 h).resolve_left (by simp)) hf)
  | case3 fresh b rest hb ih =>
      by_cases hab : a = b
      · exact mem_postorder_of_leave (List.mem_append_right _ (hab ▸ List.mem_cons_self))
      · have hrest : .enter a ∈ rest :=
          (List.mem_cons.1 h).resolve_left fun heq => hab (Step.enter.inj heq)
        exact ih (List.mem_append_right _ (List.mem_cons_of_mem _ hrest))
          ((List.mem_erase_of_ne hab).2 hf)
  | case4 fresh b rest hb ih =>
      rcases List.mem_cons.1 h with heq | h
      · exact absurd (Step.enter.inj heq ▸ hf) hb
      · exact ih h hf

/-- With a thing that is entered its neighbours are visited. -/
theorem next_mem_postorder {pending : List (Step α)} {a b : α} (hf : fresh.Nodup)
    (hd : ∀ a, .leave a ∈ pending → a ∉ fresh) (ha : a ∈ postorder next fresh pending)
    (haf : a ∈ fresh) (hb : b ∈ next a) (hbf : b ∈ fresh) : b ∈ postorder next fresh pending := by
  fun_induction postorder next fresh pending with
  | case1 => cases ha
  | case2 fresh c rest ih =>
      have hac : a ≠ c := fun heq => hd c List.mem_cons_self (heq ▸ haf)
      exact List.mem_cons_of_mem _ (ih hf (fun x hx => hd x (List.mem_cons_of_mem _ hx))
        ((List.mem_cons.1 ha).resolve_left hac) haf hbf)
  | case3 fresh c rest hc ih =>
      by_cases hbc : b = c
      · exact mem_postorder_of_leave (List.mem_append_right _ (hbc ▸ List.mem_cons_self))
      · have hbf' := (List.mem_erase_of_ne hbc).2 hbf
        by_cases hac : a = c
        · exact mem_postorder_of_enter
            (List.mem_append_left _ (List.mem_map_of_mem (hac ▸ hb))) hbf'
        · refine ih (hf.erase c) (fun x hx hmem => ?_) ha ((List.mem_erase_of_ne hac).2 haf) hbf'
          rcases List.mem_append.1 hx with hx | hx
          · simp at hx
          · rcases List.mem_cons.1 hx with hx | hx
            · obtain rfl := Step.leave.inj hx
              exact ((hf.mem_erase_iff).1 hmem).1 rfl
            · exact hd x (List.mem_cons_of_mem _ hx) (List.mem_of_mem_erase hmem)
  | case4 fresh c rest hc ih =>
      exact ih hf (fun x hx => hd x (List.mem_cons_of_mem _ hx)) ha haf hbf

/-- A thing whose neighbours are done. -/
def Step.left? : Step α → Option α
  | .enter _ => none
  | .leave a => some a

omit [DecidableEq α] in
theorem mem_left {pending : List (Step α)} {a : α} :
    a ∈ pending.filterMap Step.left? ↔ .leave a ∈ pending := by
  rw [List.mem_filterMap]
  constructor
  · rintro ⟨s, hs, heq⟩
    cases s with
    | enter => cases heq
    | leave b => exact Option.some.inj heq ▸ hs
  · exact fun h => ⟨.leave a, h, rfl⟩

/-- Nothing is left twice. -/
theorem nodup_postorder_of_left {pending : List (Step α)} (hf : fresh.Nodup)
    (hl : (pending.filterMap Step.left?).Nodup) (hd : ∀ a, .leave a ∈ pending → a ∉ fresh) :
    (postorder next fresh pending).Nodup := by
  fun_induction postorder next fresh pending with
  | case1 => exact List.nodup_nil
  | case2 fresh b rest ih =>
      obtain ⟨hb, hrest⟩ := List.nodup_cons.1 hl
      refine List.nodup_cons.2 ⟨fun h => ?_, ih hf hrest fun a ha => hd a (List.mem_cons_of_mem _ ha)⟩
      rcases mem_of_mem_postorder h with h | h
      · exact hd b List.mem_cons_self h
      · exact hb (mem_left.2 h)
  | case3 fresh b rest hb ih =>
      have hnew : ((next b).map Step.enter).filterMap Step.left? = [] := by
        simp [List.filterMap_map, Function.comp_def, Step.left?]
      have hbrest : .leave b ∉ rest := fun h => hd b (List.mem_cons_of_mem _ h) hb
      refine ih (hf.erase b) ?_ fun a ha hmem => ?_
      · rw [List.filterMap_append, hnew]
        exact List.nodup_cons.2 ⟨fun h => hbrest (mem_left.1 h), hl⟩
      · rcases List.mem_append.1 ha with ha | ha
        · simp at ha
        · rcases List.mem_cons.1 ha with ha | ha
          · obtain rfl := Step.leave.inj ha
            exact ((hf.mem_erase_iff).1 hmem).1 rfl
          · exact hd a (List.mem_cons_of_mem _ ha) (List.mem_of_mem_erase hmem)
  | case4 fresh b rest hb ih =>
      exact ih hf hl fun a ha => hd a (List.mem_cons_of_mem _ ha)

theorem nodup_postorder (hf : fresh.Nodup) {a : α} : (postorder next fresh [.enter a]).Nodup :=
  nodup_postorder_of_left hf List.nodup_nil (by simp)

/-! ## Neighbours first -/

/-- One thing is a neighbour of another. -/
abbrev Next (next : α → List α) (a b : α) : Prop := b ∈ next a

/-- Each thing of a list comes after its neighbours, apart from those that were done before. -/
def NextFirst (next : α → List α) (done : List α) : List α → Prop
  | [] => True
  | a :: rest => (∀ b ∈ next a, b ∈ done) ∧ NextFirst next (a :: done) rest

omit [DecidableEq α] in
theorem NextFirst.congr {next' : α → List α} {done rest : List α} (h : NextFirst next done rest)
    (hn : ∀ a ∈ rest, next' a = next a) : NextFirst next' done rest := by
  induction rest generalizing done with
  | nil => trivial
  | cons a rest ih =>
      refine ⟨fun b hb => h.1 b ?_, ih h.2 fun b hb => hn b (List.mem_cons_of_mem _ hb)⟩
      rwa [← hn a List.mem_cons_self]

/-- A neighbour of a thing is done, or leads back to it. Of a thing that does not lead back to
itself all that it leads to is done. -/
structure Below (next : α → List α) (done : List α) (a : α) : Prop where
  near : ∀ b ∈ next a, b ∈ done ∨ Relation.ReflTransGen (Next next) b a
  far : ¬ Relation.TransGen (Next next) a a → ∀ b, Relation.TransGen (Next next) a b → b ∈ done

/-- Each thing of a list comes after what it leads to, as far as cycles let it. -/
def BelowFirst (next : α → List α) (done : List α) : List α → Prop
  | [] => True
  | a :: rest => Below next done a ∧ BelowFirst next (a :: done) rest

omit [DecidableEq α] in
theorem BelowFirst.nextFirst {done rest : List α} (h : BelowFirst next done rest)
    (hc : ∀ a ∈ rest, ¬ Relation.TransGen (Next next) a a) : NextFirst next done rest := by
  induction rest generalizing done with
  | nil => trivial
  | cons a rest ih =>
      refine ⟨fun b hb => ?_, ih h.2 fun b hb => hc b (List.mem_cons_of_mem _ hb)⟩
      exact (h.1.near b hb).resolve_right fun hback => hc a List.mem_cons_self (.head' hb hback)

/-- The neighbours of a thing that is to be left are seen before, or once what comes first is. -/
def Ready (next : α → List α) (seen : List α) : List (Step α) → Prop
  | [] => True
  | .enter a :: rest => Ready next (a :: seen) rest
  | .leave a :: rest => (∀ b ∈ next a, b ∈ seen) ∧ Ready next seen rest

/-- What comes before a thing that is to be left is led to by it. -/
def Nested (next : α → List α) (pending : List (Step α)) : Prop :=
  pending.Pairwise fun s t => ∀ a, t = .leave a → Relation.TransGen (Next next) a s.thing

omit [DecidableEq α] in
theorem Ready.mono {seen seen' : List α} (hs : seen ⊆ seen') {pending : List (Step α)}
    (h : Ready next seen pending) : Ready next seen' pending := by
  induction pending generalizing seen seen' with
  | nil => trivial
  | cons s rest ih =>
      cases s with
      | enter a => exact ih (List.cons_subset_cons a hs) h
      | leave a => exact ⟨fun b hb => hs (h.1 b hb), ih hs h.2⟩

omit [DecidableEq α] in
theorem ready_enter_append {seen : List α} {as : List α} {pending : List (Step α)} :
    Ready next seen (as.map .enter ++ pending) ↔ Ready next (as.reverse ++ seen) pending := by
  induction as generalizing seen with
  | nil => rfl
  | cons a rest ih =>
      rw [List.map_cons, List.cons_append, Ready, ih, List.reverse_cons, List.append_assoc]
      rfl

omit [DecidableEq α] in
theorem Nested.enter {a : α} {pending : List (Step α)} (h : Nested next (.enter a :: pending)) :
    Nested next ((next a).map .enter ++ .leave a :: pending) := by
  obtain ⟨ha, hp⟩ := List.pairwise_cons.1 h
  refine List.pairwise_append.2 ⟨?_, List.pairwise_cons.2 ⟨ha, hp⟩, fun s hs t ht z hz => ?_⟩
  · refine List.pairwise_map.2 (List.pairwise_of_forall fun _ _ z hz => ?_)
    cases hz
  · obtain ⟨b, hb, rfl⟩ := List.mem_map.1 hs
    rcases List.mem_cons.1 ht with rfl | ht
    · obtain rfl := Step.leave.inj hz
      exact .single hb
    · exact (ha t ht z hz).tail hb

omit [DecidableEq α] in
/-- Where the neighbours of what is done, and those of a thing, are done or lead back to it. -/
theorem below_of_forall {done : List α} {a : α}
    (hnext : ∀ b ∈ next a, b ∈ done ∨ Relation.ReflTransGen (Next next) b a)
    (hdone : ∀ c ∈ done, ∀ b ∈ next c, b ∈ done ∨ Relation.ReflTransGen (Next next) b a) :
    Below next done a := by
  refine ⟨hnext, fun hc b hab => ?_⟩
  induction hab with
  | single hb => exact (hnext _ hb).resolve_right fun hback => hc (.head' hb hback)
  | tail hab hb ih =>
      exact (hdone _ ih _ hb).resolve_right fun hback => hc (.trans_left (hab.tail hb) hback)

/-- A walk visits each thing after what it leads to. -/
theorem belowFirst_postorder_of_ready {P : α → Prop} (hn : ∀ a, P a → ∀ b ∈ next a, P b)
    {done seen : List α} {pending : List (Step α)} (hf : fresh.Nodup)
    (hp : ∀ s ∈ pending, P s.thing)
    (hall : ∀ a, P a → a ∈ fresh ∨ a ∈ done ∨ .leave a ∈ pending)
    (hdone : ∀ a ∈ done, P a ∧ ∀ b ∈ next a, b ∉ fresh) (hnest : Nested next pending)
    (hready : Ready next seen pending) (hseen : ∀ b ∈ seen, b ∉ fresh) :
    BelowFirst next done (postorder next fresh pending) := by
  fun_induction postorder next fresh pending generalizing done seen with
  | case1 => trivial
  | case2 fresh a rest ih =>
      have hPa : P a := hp (.leave a) List.mem_cons_self
      -- what was met and is not done is still to be left, so it leads to what is left before
      have hmet : ∀ b, P b → b ∉ fresh → b ∈ done ∨ Relation.ReflTransGen (Next next) b a := by
        intro b hPb hb
        refine ((hall b hPb).resolve_left hb).imp_right fun hleave => ?_
        rcases List.mem_cons.1 hleave with heq | hleave
        · exact Step.leave.inj heq ▸ .refl
        · exact ((List.pairwise_cons.1 hnest).1 _ hleave b rfl).to_reflTransGen
      have hnext : ∀ b ∈ next a, b ∉ fresh := fun b hb => hseen b (hready.1 b hb)
      refine ⟨below_of_forall (fun b hb => hmet b (hn a hPa b hb) (hnext b hb)) fun c hc b hb =>
          hmet b (hn c (hdone c hc).1 b hb) ((hdone c hc).2 b hb),
        ih hf (fun s hs => hp s (List.mem_cons_of_mem _ hs)) (fun b hb => ?_)
          (List.forall_mem_cons.2 ⟨⟨hPa, hnext⟩, hdone⟩) hnest.of_cons hready.2 hseen⟩
      rcases hall b hb with hb | hb | hb
      · exact .inl hb
      · exact .inr (.inl (List.mem_cons_of_mem _ hb))
      · rcases List.mem_cons.1 hb with hb | hb
        · exact .inr (.inl (Step.leave.inj hb ▸ List.mem_cons_self))
        · exact .inr (.inr hb)
  | case3 fresh a rest ha ih =>
      have hPa : P a := hp (.enter a) List.mem_cons_self
      have hseen' : ∀ b ∈ a :: seen, b ∉ fresh.erase a :=
        List.forall_mem_cons.2 ⟨fun h => ((hf.mem_erase_iff).1 h).1 rfl,
          fun b hb h => hseen b hb (List.mem_of_mem_erase h)⟩
      refine ih (hf.erase a) (fun s hs => ?_) (fun b hb => ?_)
        (fun c hc => ⟨(hdone c hc).1, fun b hb h => (hdone c hc).2 b hb (List.mem_of_mem_erase h)⟩)
        hnest.enter ?_ hseen'
      · rcases List.mem_append.1 hs with hs | hs
        · obtain ⟨b, hb, rfl⟩ := List.mem_map.1 hs
          exact hn a hPa b hb
        · rcases List.mem_cons.1 hs with rfl | hs
          · exact hPa
          · exact hp s (List.mem_cons_of_mem _ hs)
      · by_cases hba : b = a
        · exact .inr (.inr (List.mem_append_right _ (hba ▸ List.mem_cons_self)))
        · rcases hall b hb with hb | hb | hb
          · exact .inl ((List.mem_erase_of_ne hba).2 hb)
          · exact .inr (.inl hb)
          · refine .inr (.inr (List.mem_append_right _ (List.mem_cons_of_mem _ ?_)))
            exact (List.mem_cons.1 hb).resolve_left (by simp)
      · refine ready_enter_append.2 ⟨fun b hb => ?_, Ready.mono (List.subset_append_right _ _) hready⟩
        exact List.mem_append_left _ (List.mem_reverse.2 hb)
  | case4 fresh a rest ha ih =>
      refine ih hf (fun s hs => hp s (List.mem_cons_of_mem _ hs)) (fun b hb => ?_) hdone hnest.of_cons
        hready (List.forall_mem_cons.2 ⟨ha, hseen⟩)
      exact (hall b hb).imp_right fun hb => hb.imp_right fun hb =>
        (List.mem_cons.1 hb).resolve_left (by simp)

theorem belowFirst_postorder {P : α → Prop} {a : α} (ha : P a)
    (hn : ∀ a, P a → ∀ b ∈ next a, P b) (hall : ∀ a, P a → a ∈ fresh) (hf : fresh.Nodup) :
    BelowFirst next [] (postorder next fresh [.enter a]) := by
  have hready : Ready next [] [.enter a] := trivial
  refine belowFirst_postorder_of_ready hn hf (fun s hs => ?_) (fun b hb => .inl (hall b hb))
    (List.forall_mem_nil _) (List.pairwise_singleton _ _) hready (List.forall_mem_nil _)
  rw [List.mem_singleton.1 hs]
  exact ha

end Typewright.Walk
