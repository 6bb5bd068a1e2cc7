import Mathlib.Data.List.Forall2

/-!
# Lists that are related place by place

What `List.Forall₂` needs in addition when the relation is known for the members of a list alone.
-/

namespace ObjectMapping

variable {α β γ : Type} {R : α → β → Prop}

/-- A relation that follows from another one on every member of a list follows on the list. -/
theorem forall₂_imp_of_mem {S : α → β → Prop} {as : List α} {bs : List β}
    (h : List.Forall₂ R as bs) (hRS : ∀ a ∈ as, ∀ b, R a b → S a b) : List.Forall₂ S as bs := by
  induction h with
  | nil => exact .nil
  | cons hr _ ih =>
    exact .cons (hRS _ (by simp) _ hr) (ih fun a ha => hRS a (by simp [ha]))

/-- Relations that are the same on all members of two lists relate them alike. -/
theorem forall₂_congr_of_mem {S : α → β → Prop} {as : List α} {bs : List β}
    (h : ∀ a ∈ as, ∀ b ∈ bs, R a b ↔ S a b) : List.Forall₂ R as bs ↔ List.Forall₂ S as bs := by
  induction as generalizing bs with
  | nil => cases bs <;> simp
  | cons a as ih =>
    cases bs with
    | nil => simp
    | cons b bs =>
      rw [List.forall₂_cons, List.forall₂_cons, h a (by simp) b (by simp),
        ih fun a ha b hb => h a (by simp [ha]) b (by simp [hb])]

/-- A relation that can be turned around on all members of two lists can be on the lists. -/
theorem forall₂_flip_of_mem {S : β → α → Prop} {as : List α} {bs : List β}
    (h : List.Forall₂ R as bs) (hRS : ∀ a ∈ as, ∀ b ∈ bs, R a b → S b a) :
    List.Forall₂ S bs as := by
  induction h with
  | nil => exact .nil
  | cons hr _ ih =>
    exact .cons (hRS _ (by simp) _ (by simp) hr)
      (ih fun a ha b hb => hRS a (by simp [ha]) b (by simp [hb]))

/-- Relations that compose on every member of a list compose on the list. -/
theorem forall₂_comp_of_mem {S : β → γ → Prop} {T : α → γ → Prop} {as : List α} {bs : List β}
    {cs : List γ} (h : ∀ a ∈ as, ∀ b c, R a b → S b c → T a c) (hab : List.Forall₂ R as bs)
    (hbc : List.Forall₂ S bs cs) : List.Forall₂ T as cs := by
  induction hab generalizing cs with
  | nil => cases hbc; exact .nil
  | cons hr _ ih =>
    cases hbc with
    | cons hs hrest =>
      exact .cons (h _ (by simp) _ _ hr hs) (ih (fun a ha => h a (by simp [ha])) hrest)

/-- Lists that are each related to one list are related if this relates what stands at its
places. -/
theorem forall₂_fork_of_mem {S : α → γ → Prop} {T : β → γ → Prop} {as : List α} {bs : List β}
    {cs : List γ} (h : ∀ a ∈ as, ∀ b c, R a b → S a c → T b c) (hab : List.Forall₂ R as bs)
    (hac : List.Forall₂ S as cs) : List.Forall₂ T bs cs := by
  induction hab generalizing cs with
  | nil => cases hac; exact .nil
  | cons hr _ ih =>
    cases hac with
    | cons hs hrest =>
      exact .cons (h _ (by simp) _ _ hr hs) (ih (fun a ha => h a (by simp [ha])) hrest)

/-- Lists that are related in two ways are related in both at every place. -/
theorem forall₂_and {S : α → β → Prop} {as : List α} {bs : List β} (h : List.Forall₂ R as bs)
    (h' : List.Forall₂ S as bs) : List.Forall₂ (fun a b => R a b ∧ S a b) as bs := by
  induction h with
  | nil => exact .nil
  | cons hr _ ih =>
    cases h' with
    | cons hs h' => exact .cons ⟨hr, hs⟩ (ih h')

/-- Lists that are related are related on either side of a cut. -/
theorem forall₂_append_split :
    ∀ {as₁ as₂ : List α} {bs : List β}, List.Forall₂ R (as₁ ++ as₂) bs →
      ∃ bs₁ bs₂, bs = bs₁ ++ bs₂ ∧ List.Forall₂ R as₁ bs₁ ∧ List.Forall₂ R as₂ bs₂
  | [], _, bs, h => ⟨[], bs, rfl, .nil, h⟩
  | _ :: _, _, _ :: _, .cons hr h => by
    obtain ⟨bs₁, bs₂, rfl, h₁, h₂⟩ := forall₂_append_split h
    exact ⟨_ :: bs₁, bs₂, rfl, .cons hr h₁, h₂⟩

/-- Lists cut at the same place are related if they are on either side of the cut. -/
theorem forall₂_append_iff {as₁ as₂ : List α} {bs₁ bs₂ : List β} (h : as₁.length = bs₁.length) :
    List.Forall₂ R (as₁ ++ as₂) (bs₁ ++ bs₂) ↔ List.Forall₂ R as₁ bs₁ ∧ List.Forall₂ R as₂ bs₂ := by
  refine ⟨fun hall => ?_, fun hall => List.rel_append hall.1 hall.2⟩
  obtain ⟨cs₁, cs₂, heq, h₁, h₂⟩ := forall₂_append_split hall
  obtain ⟨rfl, rfl⟩ := List.append_inj heq (h.symm.trans h₁.length_eq)
  exact ⟨h₁, h₂⟩

/-- Every member of the first list is related to one of the second. -/
theorem forall₂_mem_left {as : List α} {bs : List β} (h : List.Forall₂ R as bs) {a : α}
    (ha : a ∈ as) : ∃ b ∈ bs, R a b := by
  induction h with
  | nil => cases ha
  | cons hr _ ih =>
    rcases List.mem_cons.1 ha with rfl | ha
    · exact ⟨_, by simp, hr⟩
    · obtain ⟨b, hb, hab⟩ := ih ha
      exact ⟨b, by simp [hb], hab⟩

/-- Every member of the second list is related to one of the first. -/
theorem forall₂_mem_right {as : List α} {bs : List β} (h : List.Forall₂ R as bs) {b : β}
    (hb : b ∈ bs) : ∃ a ∈ as, R a b := by
  induction h with
  | nil => cases hb
  | cons h _ ih =>
    rcases List.mem_cons.1 hb with rfl | hb
    · exact ⟨_, by simp, h⟩
    · obtain ⟨a, ha, hab⟩ := ih hb
      exact ⟨a, by simp [ha], hab⟩

/-- Two members that are related to one member alone are the same, if the second list holds no
member twice. -/
theorem eq_of_forall₂_nodup {as : List α} {bs : List β} (h : List.Forall₂ R as bs)
    (hbs : bs.Nodup) {a a' : α} {b : β} (ha : a ∈ as) (ha' : a' ∈ as) (hb : ∀ c, R a c → c = b)
    (hb' : ∀ c, R a' c → c = b) : a = a' := by
  induction h with
  | nil => cases ha
  | @cons x y as bs hxy hrest ih =>
    obtain ⟨hy, hbs⟩ := List.nodup_cons.1 hbs
    have hlater {z : α} (hz : z ∈ as) (hzb : ∀ c, R z c → c = b) : y ≠ b := by
      obtain ⟨c, hc, hzc⟩ := forall₂_mem_left hrest hz
      exact fun hyb => hy (hyb.trans (hzb c hzc).symm ▸ hc)
    rcases List.mem_cons.1 ha with rfl | hmem <;> rcases List.mem_cons.1 ha' with rfl | hmem'
    · rfl
    · exact absurd (hb y hxy) (hlater hmem' hb')
    · exact absurd (hb' y hxy) (hlater hmem hb)
    · exact ih hbs hmem hmem'

theorem isEmpty_eq_of_forall₂ {as : List α} {bs : List β} (h : List.Forall₂ R as bs) :
    bs.isEmpty = as.isEmpty := by
  cases h <;> rfl

/-- Lists that have the same image at every place have the same images. -/
theorem map_eq_map_of_forall₂ {f : α → γ} {g : β → γ} {as : List α} {bs : List β}
    (h : List.Forall₂ (fun a b => f a = g b) as bs) : as.map f = bs.map g := by
  induction h with
  | nil => rfl
  | cons h _ ih => rw [List.map_cons, List.map_cons, h, ih]

/-- Lists that are related are related at every index. -/
theorem getElem?_rel_of_forall₂ {as : List α} {bs : List β} (h : List.Forall₂ R as bs) (i : Nat) :
    Option.Rel R as[i]? bs[i]? := by
  induction h generalizing i with
  | nil => exact .none
  | cons h _ ih =>
    cases i with
    | zero => exact .some h
    | succ i => exact ih i

end ObjectMapping
