import Mathlib.Data.List.Forall2

/-!
Where what may fail succeeds: one part after another, and the items of a list one after another.
-/

namespace Schematron

variable {α β γ ε : Type}

theorem bind_eq_ok_iff {x : Except ε α} {f : α → Except ε β} {b : β} :
    x >>= f = .ok b ↔ ∃ a, x = .ok a ∧ f a = .ok b := by
  cases x <;> simp [bind, Except.bind]

theorem bind_eq_error_iff {x : Except ε α} {f : α → Except ε β} {e : ε} :
    x >>= f = .error e ↔ x = .error e ∨ ∃ a, x = .ok a ∧ f a = .error e := by
  cases x <;> simp [bind, Except.bind]

theorem mapError_eq_ok_iff {ε' : Type} {x : Except ε α} {f : ε → ε'} {a : α} :
    x.mapError f = .ok a ↔ x = .ok a := by
  cases x <;> simp [Except.mapError]

/-- What is done to every item of a list succeeds where it succeeds for each. -/
theorem mapM_eq_ok_iff {f : α → Except ε β} {as : List α} {bs : List β} :
    as.mapM f = .ok bs ↔ List.Forall₂ (fun a b => f a = .ok b) as bs := by
  induction as generalizing bs with
  | nil => simp [pure, Except.pure, eq_comm]
  | cons a as ih =>
    rw [List.mapM_cons, List.forall₂_cons_left_iff]
    simp only [bind_eq_ok_iff, ih]
    constructor
    · rintro ⟨b, hb, rest, hrest, ⟨⟩⟩
      exact ⟨b, rest, hb, hrest, rfl⟩
    · rintro ⟨b, rest, hb, hrest, rfl⟩
      exact ⟨b, hb, rest, hrest, rfl⟩

theorem mapM_eq_self {f : α → Except ε α} {l : List α} (h : ∀ a ∈ l, f a = .ok a) : l.mapM f = .ok l :=
  mapM_eq_ok_iff.mpr (List.forall₂_same.mpr h)

theorem forM_eq_ok_iff {f : α → Except ε Unit} {l : List α} :
    l.forM f = .ok () ↔ ∀ a ∈ l, f a = .ok () := by
  induction l with
  | nil => simp [pure, Except.pure]
  | cons a l ih =>
    rw [List.forall_mem_cons, ← ih]
    refine (bind_eq_ok_iff (f := fun _ => l.forM f)).trans ?_
    constructor
    · rintro ⟨⟨⟩, ha, hl⟩
      exact ⟨ha, hl⟩
    · rintro ⟨ha, hl⟩
      exact ⟨⟨⟩, ha, hl⟩

/-- Where something fails for a list, it fails for an item. -/
theorem exists_of_mapM_eq_error {f : α → Except ε β} {as : List α} {e : ε} (h : as.mapM f = .error e) :
    ∃ a ∈ as, f a = .error e := by
  induction as with
  | nil => cases h
  | cons a as ih =>
    rw [List.mapM_cons] at h
    rcases bind_eq_error_iff.mp h with ha | ⟨b, -, h⟩
    · exact ⟨a, List.mem_cons_self, ha⟩
    rcases bind_eq_error_iff.mp h with hrest | ⟨bs, -, h⟩
    · obtain ⟨a', ha', he⟩ := ih hrest
      exact ⟨a', List.mem_cons_of_mem _ ha', he⟩
    · cases h

theorem exists_of_forM_eq_error {f : α → Except ε Unit} {as : List α} {e : ε} (h : as.forM f = .error e) :
    ∃ a ∈ as, f a = .error e := by
  induction as with
  | nil => cases h
  | cons a as ih =>
    rcases bind_eq_error_iff.mp (h : (f a >>= fun _ => as.forM f) = .error e) with ha | ⟨_, -, hrest⟩
    · exact ⟨a, List.mem_cons_self, ha⟩
    · obtain ⟨a', ha', he⟩ := ih hrest
      exact ⟨a', List.mem_cons_of_mem _ ha', he⟩

theorem exists_of_mapM_eq_some {f : α → Option β} {as : List α} {bs : List β} (h : as.mapM f = some bs) :
    ∀ b ∈ bs, ∃ a ∈ as, f a = some b := by
  induction as generalizing bs with
  | nil =>
    cases h
    exact List.forall_mem_nil _
  | cons a as ih =>
    rw [List.mapM_cons] at h
    obtain ⟨b, hb, h⟩ := Option.bind_eq_some_iff.mp h
    obtain ⟨rest, hrest, ⟨⟩⟩ := Option.bind_eq_some_iff.mp h
    refine List.forall_mem_cons.mpr ⟨⟨a, List.mem_cons_self, hb⟩, fun c hc => ?_⟩
    obtain ⟨a', ha', hc'⟩ := ih hrest c hc
    exact ⟨a', List.mem_cons_of_mem _ ha', hc'⟩

theorem exists_of_forall₂_of_mem {R : α → β → Prop} {as : List α} {bs : List β} {a : α}
    (h : List.Forall₂ R as bs) (ha : a ∈ as) : ∃ b ∈ bs, R a b := by
  induction h with
  | nil => cases ha
  | cons hr _ ih =>
    rcases List.mem_cons.mp ha with rfl | ha
    · exact ⟨_, List.mem_cons_self, hr⟩
    · obtain ⟨b, hb, hab⟩ := ih ha
      exact ⟨b, List.mem_cons_of_mem _ hb, hab⟩

/-- What comes of a list is what comes of its items. -/
theorem mem_of_mapM_eq_ok {f : α → Except ε β} {as : List α} {bs : List β} (h : as.mapM f = .ok bs) {b : β} :
    b ∈ bs ↔ ∃ a ∈ as, f a = .ok b := by
  have hall := mapM_eq_ok_iff.mp h
  refine ⟨fun hb => exists_of_forall₂_of_mem hall.flip hb, fun ⟨a, ha, hab⟩ => ?_⟩
  obtain ⟨b', hb', hab'⟩ := exists_of_forall₂_of_mem hall ha
  cases hab.symm.trans hab'
  exact hb'

theorem exists_getElem?_of_forall₂ {R : α → β → Prop} {as : List α} {bs : List β} {a : α} {i : Nat}
    (h : List.Forall₂ R as bs) (ha : as[i]? = some a) : ∃ b, bs[i]? = some b ∧ R a b := by
  induction h generalizing i with
  | nil => cases ha
  | cons hr _ ih =>
    cases i with
    | zero =>
      cases ha
      exact ⟨_, rfl, hr⟩
    | succ i => exact ih ha

theorem exists_mapM_eq_ok_iff {f : α → Except ε β} {as : List α} :
    (∃ bs, as.mapM f = .ok bs) ↔ ∀ a ∈ as, ∃ b, f a = .ok b := by
  refine ⟨fun ⟨bs, h⟩ a ha => ?_, fun h => ?_⟩
  · obtain ⟨b, -, hab⟩ := exists_of_forall₂_of_mem (mapM_eq_ok_iff.mp h) ha
    exact ⟨b, hab⟩
  · cases hbs : as.mapM f with
    | ok bs => exact ⟨bs, rfl⟩
    | error e =>
      obtain ⟨a, ha, he⟩ := exists_of_mapM_eq_error hbs
      obtain ⟨b, hab⟩ := h a ha
      cases he.symm.trans hab

theorem forall₂_trans {R : α → β → Prop} {S : β → γ → Prop} {T : α → γ → Prop}
    (hT : ∀ a b c, R a b → S b c → T a c) {as : List α} {bs : List β} {cs : List γ}
    (h : List.Forall₂ R as bs) (h' : List.Forall₂ S bs cs) : List.Forall₂ T as cs := by
  induction h generalizing cs with
  | nil =>
    cases h'
    exact .nil
  | cons hab _ ih =>
    cases h' with
    | cons hbc hrest => exact .cons (hT _ _ _ hab hbc) (ih hrest)

theorem filterAuxM_eq_ok {f : α → Except ε Bool} {p : α → Bool} {l : List α} (h : ∀ a ∈ l, f a = .ok (p a))
    (kept : List α) : l.filterAuxM f kept = .ok ((l.filter p).reverse ++ kept) := by
  induction l generalizing kept with
  | nil => rfl
  | cons a l ih =>
    obtain ⟨ha, hl⟩ := List.forall_mem_cons.mp h
    rw [List.filterAuxM, ha]
    refine (ih hl _).trans ?_
    cases hp : p a <;> simp [hp]

/-- Where each test succeeds, the items that pass are kept. -/
theorem filterM_eq_ok {f : α → Except ε Bool} {p : α → Bool} {l : List α} (h : ∀ a ∈ l, f a = .ok (p a)) :
    l.filterM f = .ok (l.filter p) := by
  rw [List.filterM, filterAuxM_eq_ok h]
  simp [bind, Except.bind, pure, Except.pure]

/-- What gives a part of what was given before, item by item, gives these parts. -/
theorem mapM_eq_ok_map {f : α → Except ε β} {f' : α → Except ε γ} {g : β → γ} {as : List α} {bs : List β}
    (hf : ∀ a b, f a = .ok b → f' a = .ok (g b)) (h : as.mapM f = .ok bs) :
    as.mapM f' = .ok (bs.map g) := by
  rw [mapM_eq_ok_iff] at h ⊢
  exact List.forall₂_map_right_iff.mpr (h.imp hf)

/-- Where what comes of an item shows whether the item has a property, without the items that do not have
it nothing else is lost. -/
theorem mapM_filter_eq_ok {f : α → Except ε (List β)} {p : α → Bool} {q : β → Bool} {as : List α}
    {bs : List (List β)} (hpq : ∀ a b, f a = .ok b → ∀ x ∈ b, q x = p a) (h : as.mapM f = .ok bs) :
    ∃ kept, (as.filter p).mapM f = .ok kept ∧ kept.flatten = bs.flatten.filter q := by
  rw [mapM_eq_ok_iff] at h
  induction h with
  | nil => exact ⟨[], rfl, rfl⟩
  | @cons a b as bs hab _ ih =>
    obtain ⟨kept, hkept, hflatten⟩ := ih
    rw [List.flatten_cons, List.filter_append, ← hflatten]
    cases hp : p a with
    | false =>
      have hnone : b.filter q = [] := by
        refine List.filter_eq_nil_iff.mpr fun x hx => ?_
        rw [hpq a b hab x hx, hp]
        exact Bool.false_ne_true
      refine ⟨kept, ?_, ?_⟩
      · rw [List.filter_cons_of_neg (by simp [hp])]
        exact hkept
      · rw [hnone, List.nil_append]
    | true =>
      have hall : b.filter q = b := by
        refine List.filter_eq_self.mpr fun x hx => ?_
        rw [hpq a b hab x hx, hp]
      refine ⟨b :: kept, ?_, ?_⟩
      · rw [List.filter_cons_of_pos hp, mapM_eq_ok_iff]
        exact .cons hab (mapM_eq_ok_iff.mp hkept)
      · rw [hall, List.flatten_cons]

section Turns

variable {σ κ : Type} {f : σ → α → Except ε σ} {kind : α → Option κ}

theorem foldlM_eq_ok_self {as : List α} {s : σ} (h : ∀ a ∈ as, f s a = .ok s) : as.foldlM f s = .ok s := by
  induction as with
  | nil => rfl
  | cons a as ih =>
    obtain ⟨ha, has⟩ := List.forall_mem_cons.mp h
    rw [List.foldlM_cons, ha]
    exact ih has

/-- A turn comes first just as well, where it may change places with each turn before it. -/
theorem foldlM_cons_eq_ok {b : α} {before after : List α} {s t : σ}
    (hswap : ∀ a ∈ before, ∀ s t, (f s a >>= (f · b)) = .ok t → (f s b >>= (f · a)) = .ok t)
    (h : (before ++ b :: after).foldlM f s = .ok t) : (b :: (before ++ after)).foldlM f s = .ok t := by
  induction before generalizing s with
  | nil => exact h
  | cons a before ih =>
    obtain ⟨ha, hbefore⟩ := List.forall_mem_cons.mp hswap
    rw [List.cons_append, List.foldlM_cons] at h
    obtain ⟨u, hu, hrest⟩ := bind_eq_ok_iff.mp h
    have hfirst := ih hbefore hrest
    rw [List.foldlM_cons] at hfirst
    obtain ⟨v, hv, hrest⟩ := bind_eq_ok_iff.mp hfirst
    obtain ⟨w, hw, hv⟩ := bind_eq_ok_iff.mp (ha s v (bind_eq_ok_iff.mpr ⟨u, hu, hv⟩))
    rw [List.foldlM_cons, List.cons_append]
    refine bind_eq_ok_iff.mpr ⟨w, hw, ?_⟩
    rw [List.foldlM_cons]
    exact bind_eq_ok_iff.mpr ⟨v, hv, hrest⟩

/-- Turns of different kinds may change places where two that follow each other may, and turns of no kind do
nothing: the order within each kind tells the outcome. -/
theorem foldlM_eq_ok_of_kinds [DecidableEq κ] (hskip : ∀ a, kind a = none → ∀ s, f s a = .ok s)
    (hswap : ∀ a b, kind a ≠ kind b → ∀ s t, (f s a >>= (f · b)) = .ok t → (f s b >>= (f · a)) = .ok t)
    {as bs : List α} (hkinds : ∀ k, as.filter (kind · = some k) = bs.filter (kind · = some k)) {s t : σ}
    (h : as.foldlM f s = .ok t) : bs.foldlM f s = .ok t := by
  induction bs generalizing as s with
  | nil =>
    have hnone : ∀ a ∈ as, kind a = none := by
      intro a ha
      cases hk : kind a with
      | none => rfl
      | some k =>
        have := List.filter_eq_nil_iff.mp (hkinds k) a ha
        simp [hk] at this
    rw [foldlM_eq_ok_self fun a ha => hskip a (hnone a ha) s] at h
    exact h
  | cons b bs ih =>
    rw [List.foldlM_cons]
    cases hb : kind b with
    | none =>
      rw [hskip b hb]
      refine ih (fun k => ?_) h
      simpa [hb] using hkinds k
    | some k =>
      have hfilter := hkinds k
      rw [List.filter_cons_of_pos (by simp [hb])] at hfilter
      obtain ⟨before, after, rfl, hbefore, -, hafter⟩ := List.filter_eq_cons_iff.mp hfilter
      have hne : ∀ a ∈ before, kind a ≠ kind b := by
        intro a ha
        simpa [hb] using hbefore a ha
      have hfirst := foldlM_cons_eq_ok (fun a ha => hswap a b (hne a ha)) h
      rw [List.foldlM_cons] at hfirst
      obtain ⟨u, hu, hrest⟩ := bind_eq_ok_iff.mp hfirst
      refine bind_eq_ok_iff.mpr ⟨u, hu, ih (fun k' => ?_) hrest⟩
      by_cases hk : k = k'
      · subst hk
        rw [List.filter_append, List.filter_eq_nil_iff.mpr hbefore, hafter, List.nil_append]
      · have hother := hkinds k'
        simpa [hb, hk] using hother

end Turns
end Schematron
