import ObjectMapping.DeferredQuery
import ObjectMapping.Proofs.MatchedRuns
import ObjectMapping.Proofs.Supplies

/-!
# The places of the stages of a query

A query of several projections is one expression, and the code of each of its stages stands in that
of the next one (`Site.Stage`). The compiled expression of a mapper stands by itself. The one place
answers to the other (`Placement.staging`) for the mappers that make functions which may be compared
(`Mapper.MakesFunctions`), and such a mapper has to stand once in the chain, for the places to
answer to each other one to one. All other places answer to themselves, but those of the query and
of these mappers (`Supply.apart`).
-/

namespace ObjectMapping

/-! ## Moved code -/

/-- The place that a path leads to, last step first. -/
def Site.below (s : Site) (path : List Nat) : Site :=
  ⟨s.stamp, path ++ s.path⟩

theorem Site.below_inj {s : Site} {path path' : List Nat} (h : s.below path = s.below path') :
    path = path' :=
  List.append_cancel_right (Site.mk.inj h).2

/-- Code has been moved from some places to others, apart from all other code. -/
def Placement.moving (moves : Site → Site → Prop)
    (hforth : ∀ {p p' r r' path path'}, moves p r → moves p' r' → p.below path = p'.below path' →
      r.below path = r'.below path')
    (hback : ∀ {p p' r r' path path'}, moves p r → moves p' r' → r.below path = r'.below path' →
      p.below path = p'.below path') : Placement where
  rel s s' := (∃ p r path, moves p r ∧ s = p.below path ∧ s' = r.below path) ∨
    s = s' ∧ ∀ p r, moves p r → s.stamp ≠ p.stamp ∧ s.stamp ≠ r.stamp
  left_eq := by
    rintro s s' r (⟨p, q, path, hmoves, rfl, rfl⟩ | ⟨rfl, hs⟩)
      (⟨p', q', path', hmoves', rfl, h⟩ | ⟨rfl, hs'⟩)
    · exact hback hmoves hmoves' h
    · exact absurd rfl (hs' p q hmoves).2
    · exact absurd (congrArg Site.stamp h) (hs p' q' hmoves').2
    · rfl
  right_eq := by
    rintro s r r' (⟨p, q, path, hmoves, rfl, rfl⟩ | ⟨rfl, hs⟩)
      (⟨p', q', path', hmoves', h, rfl⟩ | ⟨rfl, hs'⟩)
    · exact hforth hmoves hmoves' h
    · exact absurd rfl (hs' p q hmoves).1
    · exact absurd (congrArg Site.stamp h) (hs p' q' hmoves').1
    · rfl
  child := by
    rintro s r (⟨p, q, path, hmoves, rfl, rfl⟩ | ⟨rfl, hs⟩) i
    · exact .inl ⟨p, q, i :: path, hmoves, rfl, rfl⟩
    · exact .inr ⟨rfl, hs⟩

/-! ## Stages -/

/-- The place of the source in a projection. -/
def Site.source (s : Site) : Site :=
  (s.child 1).child 0

/-- The place of the lambda in a projection. -/
def Site.projection (s : Site) : Site :=
  ((s.child 1).child 1).child 0

/-- Where the lambdas of the stages stand in a query, the last stage first. -/
def Site.Stage (s : Site) : List Mapper → Site → Mapper → Prop
  | [], _, _ => False
  | m :: ms, p, n => p = s.projection ∧ n = m ∨ s.source.Stage ms p n

/-- The mapper makes functions other than to project through them. -/
def Mapper.MakesFunctions (m : Mapper) : Prop :=
  ¬ m.expression.body.FirstOrder

/-- A mapper that makes functions stands once in the chain. -/
def Mapper.StandOnce (ms : List Mapper) : Prop :=
  ms.Pairwise fun m n => m.MakesFunctions ∨ n.MakesFunctions → m.id ≠ n.id

section

variable {s p p' : Site} {ms : List Mapper} {m m' : Mapper} {path path' : List Nat}

theorem Site.Stage.mem (h : s.Stage ms p m) : m ∈ ms := by
  induction ms generalizing s with
  | nil => exact h.elim
  | cons n ms ih =>
    rcases h with ⟨-, rfl⟩ | h
    · exact .head _
    · exact .tail _ (ih h)

/-- All stages stand below the place of the query. -/
theorem Site.Stage.below (h : s.Stage ms p m) : ∃ path, p = s.below path := by
  induction ms generalizing s with
  | nil => exact h.elim
  | cons n ms ih =>
    rcases h with ⟨rfl, -⟩ | h
    · exact ⟨[0, 1, 1], rfl⟩
    · obtain ⟨path, rfl⟩ := ih h
      exact ⟨path ++ [0, 1], by simp [Site.below, Site.source, Site.child]⟩

/-- The lambda of a projection stands apart from its source. -/
theorem Site.projection_below_ne (path path' : List Nat) :
    s.projection.below path ≠ s.source.below path' := by
  intro h
  have hpath : (path ++ [0, 1]) ++ ([1] ++ s.path) = (path' ++ [0]) ++ ([1] ++ s.path) := by
    simpa [Site.below, Site.projection, Site.source, Site.child] using (Site.mk.inj h).2
  have hlast := congrArg List.getLast? (List.append_cancel_right hpath)
  simp at hlast

/-- Stages stand apart from each other. -/
theorem Site.Stage.eq_of_below (h : s.Stage ms p m) (h' : s.Stage ms p' m')
    (heq : p.below path = p'.below path') : p = p' ∧ m = m' := by
  induction ms generalizing s with
  | nil => exact h.elim
  | cons n ms ih =>
    rcases h with ⟨rfl, rfl⟩ | h <;> rcases h' with ⟨rfl, rfl⟩ | h'
    · exact ⟨rfl, rfl⟩
    · obtain ⟨q, rfl⟩ := h'.below
      exact absurd (heq.trans (by simp [Site.below])) (projection_below_ne path (path' ++ q))
    · obtain ⟨q, rfl⟩ := h.below
      exact absurd (heq.symm.trans (by simp [Site.below])) (projection_below_ne path' (path ++ q))
    · exact ih h h'

/-- A mapper that makes functions has one place in the query. -/
theorem Site.Stage.eq_of_id (honce : Mapper.StandOnce ms) (h : s.Stage ms p m)
    (h' : s.Stage ms p' m') (hm : m.MakesFunctions) (hid : m.id = m'.id) : p = p' := by
  induction ms generalizing s with
  | nil => exact h.elim
  | cons n ms ih =>
    obtain ⟨hhead, htail⟩ := List.pairwise_cons.1 honce
    rcases h with ⟨rfl, rfl⟩ | h <;> rcases h' with ⟨rfl, rfl⟩ | h'
    · rfl
    · exact absurd hid (hhead m' h'.mem (.inl hm))
    · exact absurd hid.symm (hhead m h.mem (.inr hm))
    · exact ih htail h h'

theorem Mapper.StandOnce.reverse (h : StandOnce ms) : StandOnce ms.reverse :=
  List.pairwise_reverse.2 (h.imp fun hne hmakes => (hne hmakes.symm).symm)

end

/-! ## Stages and compiled expressions -/

/-- The code of the mappers that make functions has been moved from the stages of a query to the
compiled expressions of the mappers. -/
def Placement.staging (s : Site) {ms : List Mapper} (honce : Mapper.StandOnce ms) : Placement :=
  .moving (fun p r => ∃ m, s.Stage ms.reverse p m ∧ m.MakesFunctions ∧ r = ⟨.mapper m.id, []⟩)
    (by
      rintro p p' _ _ path path' ⟨m, hm, -, rfl⟩ ⟨m', hm', -, rfl⟩ h
      obtain ⟨rfl, rfl⟩ := hm.eq_of_below hm' h
      rw [Site.below_inj h])
    (by
      rintro p p' _ _ path path' ⟨m, hm, hmakes, rfl⟩ ⟨m', hm', -, rfl⟩ h
      obtain ⟨hstamp, hpath⟩ := Site.mk.inj h
      obtain rfl := hm.eq_of_id honce.reverse hm' hmakes (Stamp.mapper.inj hstamp)
      rw [List.append_cancel_right hpath])

/-- Functions and mappers that were there before the run `n`, and none of a mapper of the chain that
makes functions. -/
def Supply.apart (ms : List Mapper) (n : NodeId) : Supply where
  functions f := (∀ k, f.site.stamp = .run k → k < n) ∧
    ∀ m ∈ ms, m.MakesFunctions → f.site.stamp ≠ .mapper m.id
  mappers m' := ∀ m ∈ ms, m.MakesFunctions → m'.id ≠ m.id

section

variable {n k : NodeId} {ms : List Mapper} (honce : Mapper.StandOnce ms)

theorem Placement.staging_stage {p : Site} {m : Mapper}
    (h : Site.Stage ⟨.run k, []⟩ ms.reverse p m) (hm : m.MakesFunctions) :
    (staging ⟨.run k, []⟩ honce).rel p ⟨.mapper m.id, []⟩ :=
  .inl ⟨p, _, [], ⟨m, h, hm, rfl⟩, rfl, rfl⟩

/-- Places of other code answer to themselves. -/
theorem Placement.staging_self {s : Site} (hrun : s.stamp ≠ .run k)
    (hmapper : ∀ m ∈ ms, m.MakesFunctions → s.stamp ≠ .mapper m.id) :
    (staging ⟨.run k, []⟩ honce).rel s s := by
  refine .inr ⟨rfl, ?_⟩
  rintro p _ ⟨m, hm, hmakes, rfl⟩
  obtain ⟨path, rfl⟩ := hm.below
  exact ⟨hrun, hmapper m (List.mem_reverse.1 hm.mem) hmakes⟩

/-- A value that was there before is matched with itself. -/
theorem Value.Over.staged (hnk : n ≤ k) {v : Value} (h : v.Over (.apart ms n)) :
    v.Matched (.staging ⟨.run k, []⟩ honce) (Expr.Over (.apart ms n)) v := by
  refine h.matched (fun f hf => ?_) fun m hm => ?_
  · have hrun : f.site.stamp ≠ .run k := fun hrun => Nat.not_lt.2 hnk (hf.1 k hrun)
    exact Placement.staging_self honce hrun hf.2
  · exact Placement.staging_self honce (by simp) fun m' hm' hmakes heq =>
      hm m' hm' hmakes (Stamp.mapper.inj heq)

theorem Placement.covers_staging (hnk : n ≤ k) :
    (staging ⟨.run k, []⟩ honce).Covers (Expr.Over (.apart ms n)) where
  part := Expr.Over.part
  body := Expr.Over.body
  constant h := (h.value rfl).staged honce hnk

end

end ObjectMapping
