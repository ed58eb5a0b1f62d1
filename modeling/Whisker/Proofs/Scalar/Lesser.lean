import Mathlib
import Whisker.Scalar

/-!
# The first of the smallest

Of two things the one with the smaller key is taken, the first one if the keys are equal. The operation is associative,
and taking it over a list ends at the first member of the list whose key is the smallest. With the keys turned round it
is the largest. Where finite numbers are ordered by a key, this is what the smaller and the larger of two of them are.
-/

namespace Whisker

section

variable {β γ : Type} [LinearOrder γ]

/-- The thing with the smaller key, the first one if the keys are equal. -/
def lesser (key : β → γ) (p q : β) : β := if key q < key p then q else p

/-- The lesser of two is one of them and has no larger key than either. -/
theorem lesser_cases (key : β → γ) (p q : β) :
    (lesser key p q = p ∨ lesser key p q = q) ∧ key (lesser key p q) ≤ key p ∧ key (lesser key p q) ≤ key q := by
  unfold lesser
  split
  · rename_i h
    exact ⟨.inr rfl, h.le, le_rfl⟩
  · rename_i h
    exact ⟨.inl rfl, le_rfl, not_lt.1 h⟩

/-- Taking the lesser is associative: of equal keys the first is kept in any grouping. -/
theorem lesser_assoc (key : β → γ) (p q r : β) :
    lesser key (lesser key p q) r = lesser key p (lesser key q r) := by
  unfold lesser
  by_cases hpq : key q < key p
  · by_cases hqr : key r < key q
    · simp [hpq, hqr, hqr.trans hpq]
    · simp [hpq, hqr]
  · by_cases hqr : key r < key q
    · simp [hpq, hqr]
    · simp [hpq, hqr, not_lt.2 ((not_lt.1 hpq).trans (not_lt.1 hqr))]

/-- A fold ends at the first of the things with the smallest key: the keys of those before it are larger. -/
theorem foldl_lesser_split (key : β → γ) (v : β) (vs : List β) :
    ∃ before after, v :: vs = before ++ vs.foldl (lesser key) v :: after ∧
      (∀ u ∈ before, key (vs.foldl (lesser key) v) < key u) ∧ ∀ u ∈ after, key (vs.foldl (lesser key) v) ≤ key u := by
  induction vs generalizing v with
  | nil => exact ⟨[], [], rfl, List.forall_mem_nil _, List.forall_mem_nil _⟩
  | cons w vs ih =>
    rw [List.foldl_cons]
    obtain ⟨before, after, hsplit, hbefore, hafter⟩ := ih (lesser key v w)
    by_cases hlt : key w < key v
    · rw [lesser, if_pos hlt] at hsplit hbefore hafter ⊢
      refine ⟨v :: before, after, congrArg (v :: ·) hsplit, List.forall_mem_cons.2 ⟨?_, hbefore⟩, hafter⟩
      have hw : w ∈ before ++ vs.foldl (lesser key) w :: after := hsplit ▸ List.mem_cons_self
      rcases List.mem_append.1 hw with hw | hw
      · exact (hbefore w hw).trans hlt
      · rcases List.mem_cons.1 hw with heq | hw
        · exact heq ▸ hlt
        · exact (hafter w hw).trans_lt hlt
    · rw [lesser, if_neg hlt] at hsplit hbefore hafter ⊢
      -- The first thing stays, and the second one is put in after it.
      cases before with
      | nil =>
        obtain ⟨hv, rfl⟩ := List.cons.inj hsplit
        refine ⟨[], w :: vs, congrArg (· :: w :: vs) hv, List.forall_mem_nil _, List.forall_mem_cons.2 ⟨?_, hafter⟩⟩
        exact hv ▸ not_lt.1 hlt
      | cons u before =>
        obtain ⟨rfl, htail⟩ := List.cons.inj hsplit
        obtain ⟨hv, hbefore⟩ := List.forall_mem_cons.1 hbefore
        refine ⟨v :: w :: before, after, congrArg (v :: w :: ·) htail, ?_, hafter⟩
        exact List.forall_mem_cons.2 ⟨hv, List.forall_mem_cons.2 ⟨hv.trans_le (not_lt.1 hlt), hbefore⟩⟩

section

variable {key : β → γ} {P : β → Prop} {op : β → β → β} {start v t : β} {vs : List β}
  (hop : ∀ {a b : β}, P a → P b → op a b = lesser key a b)

include hop

/-- The lesser of many is one of them and has the least key. -/
theorem foldl_lesser (hvs : ∀ v ∈ vs, P v) (hv : P v) :
    vs.foldl op v ∈ v :: vs ∧ ∀ u ∈ v :: vs, key (vs.foldl op v) ≤ key u := by
  induction vs generalizing v with
  | nil => exact ⟨List.mem_cons_self, fun u hu => (List.mem_singleton.1 hu) ▸ le_rfl⟩
  | cons w vs ih =>
    obtain ⟨hw, hvs⟩ := List.forall_mem_cons.1 hvs
    obtain ⟨hfirst, hlev, hlew⟩ := lesser_cases key v w
    have hnext : P (lesser key v w) := by
      rcases hfirst with h | h <;> rw [h] <;> assumption
    obtain ⟨hmem, hleast⟩ := ih hvs hnext
    rw [List.foldl_cons, hop hv hw]
    constructor
    · rcases List.mem_cons.1 hmem with heq | hin
      · rw [heq]
        rcases hfirst with h | h <;> simp [h]
      · simp [hin]
    · intro u hu
      rcases List.mem_cons.1 hu with rfl | hu
      · exact (hleast _ List.mem_cons_self).trans hlev
      · rcases List.mem_cons.1 hu with rfl | hu
        · exact (hleast _ List.mem_cons_self).trans hlew
        · exact hleast u (List.mem_cons_of_mem _ hu)

/-- From a start that gives way to any member, a fold ends at the first member with the smallest key. -/
theorem foldl_lesser_mem (hstart : ∀ {v : β}, P v → op start v = v) (hvs : ∀ v ∈ vs, P v) (ht : t ∈ vs) :
    vs.foldl op start ∈ vs ∧ key (vs.foldl op start) ≤ key t := by
  cases vs with
  | nil => cases ht
  | cons v vs =>
    obtain ⟨hv, hvs⟩ := List.forall_mem_cons.1 hvs
    rw [List.foldl_cons, hstart hv]
    obtain ⟨hmem, hleast⟩ := foldl_lesser hop hvs hv
    exact ⟨hmem, hleast t ht⟩

end

end

namespace Scalar

/-- The finite numbers are ordered by a key, and lie between the infinities. -/
structure OrderedBy {α : Type} [Scalar α] (key : α → ℚ) : Prop where
  isNaN_eq : ∀ {a : α}, isFinite a = true → isNaN a = false
  lt_iff : ∀ {a b : α}, isFinite a = true → isFinite b = true → (a < b ↔ key a < key b)
  isNaN_inf : isNaN (inf : α) = false
  isNaN_negInf : isNaN (-inf : α) = false
  lt_inf : ∀ {a : α}, isFinite a = true → a < inf
  negInf_lt : ∀ {a : α}, isFinite a = true → -inf < a

namespace OrderedBy

variable {α : Type} [Scalar α] {key : α → ℚ} (h : OrderedBy key) {a b c : α} (ha : isFinite a = true)

include h ha

theorem min_inf : min inf a = a := by
  rw [min, h.isNaN_inf, if_neg Bool.false_ne_true, if_pos (h.lt_inf ha)]

theorem max_negInf : max (-inf) a = a := by
  rw [max, h.isNaN_negInf, if_neg Bool.false_ne_true, if_pos (h.negInf_lt ha)]

variable (hb : isFinite b = true)

include hb

theorem min_eq : min a b = lesser key a b := by
  rw [min, h.isNaN_eq ha, if_neg Bool.false_ne_true]
  by_cases hlt : key b < key a <;> simp [lesser, h.lt_iff hb ha, hlt]

theorem max_eq : max a b = lesser (OrderDual.toDual ∘ key) a b := by
  rw [max, h.isNaN_eq ha, if_neg Bool.false_ne_true]
  by_cases hlt : key a < key b <;> simp [lesser, h.lt_iff ha hb, hlt]

theorem isFinite_min : isFinite (min a b) = true := by
  rw [h.min_eq ha hb]
  rcases (lesser_cases key a b).1 with hm | hm <;> rw [hm] <;> assumption

theorem isFinite_max : isFinite (max a b) = true := by
  rw [h.max_eq ha hb]
  rcases (lesser_cases (OrderDual.toDual ∘ key) a b).1 with hm | hm <;> rw [hm] <;> assumption

variable (hc : isFinite c = true)

include hc

theorem min_assoc : min (min a b) c = min a (min b c) := by
  rw [h.min_eq (h.isFinite_min ha hb) hc, h.min_eq ha (h.isFinite_min hb hc), h.min_eq ha hb, h.min_eq hb hc, lesser_assoc]

theorem max_assoc : max (max a b) c = max a (max b c) := by
  rw [h.max_eq (h.isFinite_max ha hb) hc, h.max_eq ha (h.isFinite_max hb hc), h.max_eq ha hb, h.max_eq hb hc, lesser_assoc]

end OrderedBy

end Scalar

end Whisker
