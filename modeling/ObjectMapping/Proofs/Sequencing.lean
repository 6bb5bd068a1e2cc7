import ObjectMapping.Proofs.Sharing

/-!
# Replacing parameters one after the other

A list of replacements is made in one pass, which goes into every new node for the old ones in it.
Where the old nodes are parameters, and each comes before those that occur in its new node
(`Replacement.InOrder`), it may as well be made one at a time (`Expr.substituteEach`).

The first replacement followed by the others makes what all of them make
(`Expr.Becomes.comp_chaining`), and conversely what all of them make is made by the others of what
the first one has made (`Expr.Becomes.split_chaining`). A lambda stands in the way of the one run
exactly if it does of the other : what can be made of a tree, if it can bind its parameters, is made
(`Visitor.apply_chaining_failsIff`), and the first replacement is not blocked
(`Expr.Becomes.not_blocks`). `Expr.substitute_one_by_one` is the main statement, by induction over
the list.
-/

namespace ObjectMapping

open RunM

/-! ## One replacement at a time -/

/-- Makes one replacement after the other, each in what the ones before it have made. -/
def Expr.substituteEach (e : Expr) (rs : List Replacement) : RunM Expr :=
  rs.foldlM (fun e r => e.substitute [r]) e

/-- What holds throughout a tree holds of a node that is come to. -/
theorem Expr.MetBelow.of_all {P : Expr → Prop} {hit : Expr → Bool} {e c : Expr}
    (h : e.MetBelow hit c) (he : e.All P) : P c := by
  induction h with
  | child hd => exact (he.child hd).head
  | deeper hd _ _ ih => exact ih (he.child hd)

/-- Different parameters are replaced, none of them is a new node, and each comes before all that
occur in its new node. -/
structure Replacement.InOrder (rs : List Replacement) : Prop where
  param {r : Replacement} : r ∈ rs → ∃ p, r.old = .param p
  apart : rs.Pairwise fun r s => r.old.same s.old = false
  new {r s : Replacement} : r ∈ rs → s ∈ rs → s.old.same r.new = false
  order {i j : Nat} {r s : Replacement} : rs[i]? = some r → rs[j]? = some s →
    s.old.occursIn r.new = true → i < j

section

variable {rs : List Replacement} {r s : Replacement} {e : Expr}

namespace Replacement.InOrder

theorem tail (h : InOrder (r :: rs)) : InOrder rs where
  param hs := h.param (List.mem_cons_of_mem _ hs)
  apart := (List.pairwise_cons.1 h.apart).2
  new hr hs := h.new (List.mem_cons_of_mem _ hr) (List.mem_cons_of_mem _ hs)
  order {i j _ _} hr hs hoccurs :=
    Nat.lt_of_succ_lt_succ (h.order (i := i + 1) (j := j + 1) hr hs hoccurs)

/-- The first old node occurs in no new node. -/
theorem head_not_occurs (h : InOrder (r :: rs)) (hs : s ∈ r :: rs) :
    r.old.occursIn s.new = false := by
  obtain ⟨i, hi⟩ := List.getElem?_of_mem hs
  by_contra hoccurs
  exact absurd (h.order hi rfl (Bool.not_eq_false _ ▸ hoccurs)) (Nat.not_lt_zero i)

theorem head_below (h : InOrder (r :: rs)) : r.new.outermostBelow r.old.same = [] :=
  (Expr.outermost_eq_nil_iff.1
    (Expr.occursIn_eq_false_iff.1 (h.head_not_occurs List.mem_cons_self))).2

theorem head_ne (h : InOrder (r :: rs)) (hs : s ∈ rs) : s.old ≠ r.old :=
  Expr.ne_of_not_same ((List.pairwise_cons.1 h.apart).1 s hs)

/-- No new node is an old one. -/
theorem new_ne (h : InOrder rs) (hr : r ∈ rs) (hs : s ∈ rs) : r.new ≠ s.old :=
  Expr.ne_of_not_same (h.new hr hs)

/-- An old node is found with its own new node. -/
theorem find?_old (h : InOrder rs) (hr : r ∈ rs) : find? rs r.old = some r.new := by
  induction rs with
  | nil => cases hr
  | cons s rs ih =>
    rcases List.mem_cons.1 hr with rfl | hr
    · simp [find?, Expr.same_refl]
    · have hsame : s.old.same r.old = false := (List.pairwise_cons.1 h.apart).1 r hr
      have hrest := ih h.tail hr
      simpa [find?, hsame] using hrest

/-- A replacement leads to later ones only. -/
theorem lt_of_leadsTo (h : InOrder rs) {i j : Nat} (hij : LeadsTo rs i j) : i < j := by
  obtain ⟨r, hr, d, hmet, hj⟩ := hij
  obtain ⟨hlt, hsame, -⟩ := List.findIdx?_eq_some_iff_getElem.1 hj
  refine h.order hr (List.getElem?_eq_getElem hlt) ?_
  by_contra hoccurs
  have hall : r.new.All (rs[j].old.same · = false) :=
    Expr.all_of_outermost (Expr.occursIn_eq_false_iff.1 (Bool.not_eq_true _ ▸ hoccurs))
  rw [hmet.of_all hall] at hsame
  cases hsame

/-- Replacements in order pass the check. -/
theorem check_eq_pure (h : InOrder rs) : check rs = pure () := by
  refine check_of_not_unending ?_
  rintro (⟨r, hr, hself⟩ | ⟨i, hcycle⟩)
  · rw [h.new hr hr] at hself
    cases hself
  · have hlt {j : Nat} (hij : Relation.TransGen (LeadsTo rs) i j) : i < j := by
      induction hij with
      | single hij => exact h.lt_of_leadsTo hij
      | tail _ hjk ih => exact ih.trans (h.lt_of_leadsTo hjk)
    exact Nat.lt_irrefl i (hlt hcycle)

end Replacement.InOrder

end

/-! ## The first replacement and the others -/

section

variable {J J' : Judgement} {e e' : Expr}

theorem Expr.Rebuilt.exists_fn? {f : Lambda} (h : e.Rebuilt J e') (hf : e.fn? = some f) :
    ∃ f', e'.fn? = some f' ∧ f.Becomes J f' := by
  cases h with
  | lambda hps hb | quote hps hb =>
    obtain rfl := Option.some.inj hf
    exact ⟨_, rfl, hps, hb⟩
  | _ => cases hf

theorem Expr.WellFormed.child {c : Expr} (h : e.WellFormed) (hc : c ∈ e.children) :
    c.WellFormed := by
  rcases mem_children.1 hc with hc | ⟨f, hf, hc⟩
  · exact h.part hc
  rcases List.mem_append.1 hc with hc | hc
  · obtain ⟨p, -, rfl⟩ := List.mem_map.1 hc
    exact wellFormed_param p
  · obtain rfl := List.mem_singleton.1 hc
    exact (h.fn hf).2

/-- What a list of replacements makes of a tree, another list does that goes as deep and replaces
the nodes of the tree, and of all that is put in, in the same way. -/
theorem Expr.Becomes.chaining_imp {rs rs' : List Replacement} {P : Expr → Prop}
    (hold : ∀ r ∈ rs, P r.old → r ∈ rs')
    (henters : ∀ {e}, P e → (∀ r ∈ rs, e ≠ r.old) → ∀ r ∈ rs', e ≠ r.old)
    (hnew : ∀ r ∈ rs, r.new.All P) {d d' : Nat} (hd : d ≤ d') (he : e.All P)
    (h : e.Becomes (.chaining rs d) e') : e.Becomes (.chaining rs' d') e' := by
  have enters {d d' : Nat} {e : Expr} (he : P e) (h : (Judgement.chaining rs d).enters e) :
      (Judgement.chaining rs' d').enters e :=
    Judgement.chaining_enters.2 (henters he (Judgement.chaining_enters.1 h))
  induction d generalizing d' e e' with
  | zero => exact h.imp (fun _ => Judgement.chaining_stands) (fun _ => False.elim) enters he
  | succ d ih =>
    obtain ⟨d', rfl⟩ := Nat.exists_eq_add_of_lt hd
    refine h.imp (fun _ => Judgement.chaining_stands) (fun hP hputs => ?_) enters he
    obtain ⟨r, hr, rfl, hrebuilt⟩ := hputs
    exact ⟨r, hold r hr hP, rfl, hrebuilt.imp fun c hc _ => ih (by omega) ((hnew r hr).child hc)⟩

section

variable {rs : List Replacement} {r : Replacement} {m : Expr} {d d' : Nat}

namespace Replacement.InOrder

variable (h : InOrder (r :: rs))

include h

/-- The first old node is nowhere in a new node. -/
theorem all_ne_head {s : Replacement} (hs : s ∈ r :: rs) : s.new.All (· ≠ r.old) := by
  obtain ⟨p, hp⟩ := h.param List.mem_cons_self
  have hoccurs := h.head_not_occurs hs
  rw [hp] at hoccurs ⊢
  exact Expr.all_ne hoccurs

/-- Where the first old node is not, the first replacement may be added. -/
theorem rebuilt_cons (hd : d ≤ d') (he : e.All (· ≠ r.old))
    (hr : e.Rebuilt (.chaining rs d) e') : e.Rebuilt (.chaining (r :: rs) d') e' := by
  refine hr.imp fun c hc _ hc' => hc'.chaining_imp (fun s hs _ => List.mem_cons_of_mem _ hs)
    (fun hne hrest => ?_) (fun s hs => h.all_ne_head (List.mem_cons_of_mem _ hs)) hd (he.child hc)
  exact List.forall_mem_cons.2 ⟨hne, hrest⟩

/-- Where the first old node is not, the first replacement may be left out. -/
theorem rebuilt_of_cons (hd : d ≤ d') (he : e.All (· ≠ r.old))
    (hr : e.Rebuilt (.chaining (r :: rs) d) e') : e.Rebuilt (.chaining rs d') e' := by
  refine hr.imp fun c hc _ hc' => hc'.chaining_imp (fun s hs hne => ?_)
    (fun _ hall => (List.forall_mem_cons.1 hall).2) (fun s => h.all_ne_head) hd (he.child hc)
  exact (List.mem_cons.1 hs).resolve_left fun heq => hne (heq ▸ rfl)

end Replacement.InOrder

/-- What replacements that lead to others make of a node. -/
theorem Expr.becomes_chaining : e.Becomes (.chaining rs d) e' ↔
    (∃ s ∈ rs, ∃ k, d = k + 1 ∧ e = s.old ∧ s.new.Rebuilt (.chaining rs k) e') ∨
      (∀ s ∈ rs, e ≠ s.old) ∧ e.Rebuilt (.chaining rs d) e' := by
  constructor
  · intro h
    cases h with
    | put hput =>
      cases d with
      | zero => exact hput.elim
      | succ d =>
        obtain ⟨s, hs, he, hr⟩ := hput
        exact .inl ⟨s, hs, d, rfl, he, hr⟩
    | enter henters hr => exact .inr ⟨Judgement.chaining_enters.1 henters, hr⟩
    | standIn hstands => exact absurd hstands Judgement.chaining_stands
    | stay hstands => exact absurd hstands Judgement.chaining_stands
  · rintro (⟨s, hs, k, rfl, he, hr⟩ | ⟨hne, hr⟩)
    · exact .put ⟨s, hs, he, hr⟩
    · exact .enter (Judgement.chaining_enters.2 hne) hr

/-- The first replacement, and the others in what it has made, make what all of them make. -/
theorem Expr.Becomes.comp_chaining (h : Replacement.InOrder (r :: rs))
    (h₁ : e.Becomes (.replacing [r]) m) (h₂ : m.Becomes (.chaining rs d) e') :
    e.Becomes (.chaining (r :: rs) (d + 1)) e' := by
  have hmem {s : Replacement} (hs : s ∈ rs) : s ∈ r :: rs := List.mem_cons_of_mem _ hs
  refine comp (fun {e₀ _ _} hput h₂ => ?_) (fun _ => False.elim)
    (fun {e₀ e₁ e₂} _ henters hr h₂ => ?_) (outermost_never e) h₁ h₂
  · obtain ⟨s, hs, rfl, rfl⟩ := hput
    obtain rfl := List.mem_singleton.1 hs
    -- the new node is no old one, so that it is entered
    rcases becomes_chaining.1 h₂ with ⟨s', hs', -, -, hnew, -⟩ | ⟨-, hr⟩
    · exact absurd hnew (h.new_ne (by simp) (hmem hs'))
    · exact ⟨s, by simp, rfl, h.rebuilt_cons (Nat.le_refl d) (h.all_ne_head (by simp)) hr⟩
  · have hne : e₀ ≠ r.old := henters r (by simp)
    rcases becomes_chaining.1 h₂ with ⟨s, hs, k, rfl, he₁, hr₂⟩ | ⟨hall, hr₂⟩
    · obtain ⟨q, hq⟩ := h.param (hmem hs)
      obtain rfl : e₀ = s.old := by
        rw [hq] at he₁ ⊢
        subst he₁
        exact hr.eq_of_param rfl
      exact .inl ⟨s, hmem hs, rfl, h.rebuilt_cons (Nat.le_succ k) (h.all_ne_head (hmem hs)) hr₂⟩
    · refine .inr ⟨List.forall_mem_cons.2 ⟨hne, fun s hs he₀ => ?_⟩, hr₂⟩
      obtain ⟨q, hq⟩ := h.param (hmem hs)
      rw [he₀, hq] at hr
      cases hr
      exact hall s hs hq.symm

/-- What all replacements make of a tree, the others make of what the first one has made. -/
theorem Expr.Becomes.split_chaining (h : Replacement.InOrder (r :: rs))
    (h₁ : e.Becomes (.replacing [r]) m) (h₂ : e.Becomes (.chaining (r :: rs) d) e') :
    m.Becomes (.chaining rs d) e' := by
  have hmem {s : Replacement} (hs : s ∈ rs) : s ∈ r :: rs := List.mem_cons_of_mem _ hs
  induction e using byChildren generalizing m e' with
  | h e ih =>
    rcases becomes_replacing_one.1 h₁ with ⟨rfl, rfl⟩ | ⟨hne, hr₁⟩
    · rcases becomes_chaining.1 h₂ with ⟨s, hs, k, rfl, hold, hr⟩ | ⟨hall, -⟩
      · obtain rfl : s = r := by
          refine (List.mem_cons.1 hs).resolve_right fun hs => ?_
          exact h.head_ne hs hold.symm
        refine becomes_chaining.2 (.inr ⟨fun s' hs' => h.new_ne (by simp) (hmem hs'), ?_⟩)
        exact h.rebuilt_of_cons (Nat.le_succ k) (h.all_ne_head (by simp)) hr
      · exact absurd rfl (hall r (by simp))
    · rcases becomes_chaining.1 h₂ with ⟨s, hs, k, rfl, rfl, hr⟩ | ⟨hall, hr₂⟩
      · obtain ⟨q, hq⟩ := h.param hs
        obtain rfl : m = s.old := by
          rw [hq] at hr₁ ⊢
          cases hr₁
          rfl
        have hs' : s ∈ rs := (List.mem_cons.1 hs).resolve_left fun heq => hne (heq ▸ rfl)
        refine becomes_chaining.2 (.inl ⟨s, hs', k, rfl, rfl, ?_⟩)
        exact h.rebuilt_of_cons (Nat.le_refl k) (h.all_ne_head hs) hr
      · refine becomes_chaining.2 (.inr ⟨fun s hs hm => ?_, ?_⟩)
        · obtain ⟨q, hq⟩ := h.param (hmem hs)
          rw [hm, hq] at hr₁
          exact hall s (hmem hs) ((hr₁.eq_of_param rfl).trans hq.symm)
        · exact hr₁.fork hr₂ fun c hc _ _ => ih c hc

/-! ## Lambdas in the way -/

/-- What all replacements make of a tree can bind its parameters, so nothing in the tree refuses
that the first one is made. -/
theorem Expr.Becomes.not_blocks {p : Param} {source : Expr}
    (h : Replacement.InOrder (⟨.param p, source⟩ :: rs)) (hformed : e'.WellFormed)
    (hbecomes : e.Becomes (.chaining (⟨.param p, source⟩ :: rs) d) e') : ¬ e.Blocks p source := by
  have hfirst {s : Replacement} (hs : s ∈ ⟨.param p, source⟩ :: rs) (hold : .param p = s.old) :
      s.new = source := by
    rcases List.mem_cons.1 hs with rfl | hs
    · rfl
    · exact absurd hold.symm (h.head_ne hs)
  rw [Blocks, not_someFn_iff]
  induction e using byChildren generalizing e' with
  | h e ih =>
    rcases becomes_chaining.1 hbecomes with ⟨s, hs, -, -, rfl, -⟩ | ⟨-, hr⟩
    · obtain ⟨q, hq⟩ := h.param hs
      rw [hq]
      exact .leaf (fun f hf => nomatch hf) rfl
    refine .mk (fun f hf hrefuses => ?_) fun c hc => ?_
    · obtain ⟨f', hf', hfbecomes⟩ := hr.exists_fn? hf
      have hnodup : f'.params.Nodup := (hformed.fn hf').1.of_map
      -- the source is the parameter that comes to stand in the place of `p`
      obtain ⟨q, -, hpq⟩ := forall₂_mem_left hfbecomes.params hrefuses.1
      have hput {x : Param} (hx : p.Becomes (.chaining (⟨.param p, source⟩ :: rs) d) x) :
          source = .param x := by
        rcases becomes_chaining.1 (Param.becomes_iff.1 hx) with ⟨s, hs, _, -, hold, hnew⟩ | ⟨hne, -⟩
        · exact (hfirst hs hold).symm.trans (hnew.eq_of_param rfl)
        · exact absurd rfl (hne _ List.mem_cons_self)
      have hsource : source = .param q := hput hpq
      -- it stays in its own place, so that the lambda would bind it twice
      have hkept {x : Param} (hx : q.Becomes (.chaining (⟨.param p, source⟩ :: rs) d) x) :
          x = q := by
        rcases becomes_chaining.1 (Param.becomes_iff.1 hx) with ⟨s, hs, -, -, hold, -⟩ | ⟨-, hkept⟩
        · exact absurd (hsource.trans hold) (h.new_ne (r := ⟨.param p, source⟩) (by simp) hs)
        · cases hkept
          rfl
      have heq : p = q := eq_of_forall₂_nodup hfbecomes.params hnodup hrefuses.1
        (hrefuses.2 q hsource) (fun x hx => Expr.param.inj ((hput hx).symm.trans hsource))
        fun x hx => hkept hx
      exact h.new_ne (r := ⟨.param p, source⟩) (by simp) List.mem_cons_self (heq ▸ hsource)
    · obtain ⟨c', hc', hbecomes'⟩ := forall₂_mem_left hr.children hc
      exact ih c hc (hformed.child hc') hbecomes'

/-! ## What can be made is made -/

section

variable {F G : Forest} {E : Fault → Prop} {t t' u u' : Trail} {e₁ e₂ : Expr}

theorem Replacement.find?_eq_none_of_ne (hold : ∀ r ∈ rs, F.nodes r.old) (he : F.nodes e)
    (hne : ∀ r ∈ rs, e ≠ r.old) : find? rs e = none := by
  refine find?_eq_none_iff.2 fun r hr => ?_
  by_contra hsame
  exact hne r hr (F.eq_of_same (hold r hr) he (Bool.not_eq_false _ ▸ hsame)).symm

theorem Param.requireParams_yields {I : Trail → Prop} (ps qs : List Param) :
    Yields I (requireParams ps (qs.map .param)) () := by
  induction ps generalizing qs with
  | nil => exact .pure
  | cons p ps ih =>
    cases qs with
    | nil => exact .pure
    | cons q qs =>
      rw [List.map_cons, requireParams, if_neg (by simp [Expr.param?])]
      exact ih qs

/-- The parameters of a lambda become what they can become. -/
theorem Visitor.walkList_chaining (h : Replacement.InOrder rs)
    (hold : ∀ r ∈ rs, F.nodes r.old) {ps qs : List Param} (hps : ∀ p ∈ ps, F.nodes (.param p))
    (hbecomes : List.Forall₂ (Param.Becomes (.chaining rs d)) ps qs) :
    Yields (fun _ => True) (Expr.walkList (.replacing rs d) (ps.map .param)) (qs.map .param) := by
  refine walkList_yields ?_
  rw [List.forall₂_map_left_iff, List.forall₂_map_right_iff]
  refine forall₂_imp_of_mem hbecomes fun p hp q hpq => ?_
  rcases Expr.becomes_chaining.1 (Param.becomes_iff.1 hpq) with
    ⟨s, hs, k, rfl, hold, hr⟩ | ⟨hne, hr⟩
  · rw [hold, apply_of_judge_put (judge_replacing_of_some (h.find?_old hs) k), hr.eq_of_param rfl]
    exact .pure
  · cases hr
    rw [apply_of_judge_enter (judge_replacing_of_none
      (Replacement.find?_eq_none_of_ne hold (hps p hp) hne) d)]
    exact .pure

/-- A node over parts of which something is made, which it can bind, is made. -/
theorem Visitor.walk_chaining_failsIff (h : Replacement.InOrder rs)
    (hold : ∀ r ∈ rs, F.nodes r.old) (he : F.nodes e) (hformed : e'.WellFormed)
    (hr : e.Rebuilt (.chaining rs d) e')
    (ih : ∀ c ∈ e.children, ∀ {c'}, c.Becomes (.chaining rs d) c' → c'.WellFormed →
      FailsIff (fun _ => True) ((Visitor.replacing rs d).apply c) E False) :
    FailsIff (fun _ => True) (e.walk (Visitor.replacing rs d)) E False := by
  refine (Visitor.walk_failsIff (B := fun _ => False) (C := fun _ => False) (fun _ h => h)
    (fun c hc => ?_) fun f hf => ?_).congr (by simp)
  · obtain ⟨c', hc', hbecomes⟩ := forall₂_mem_left hr.parts_becomes hc
    exact ih c (Expr.mem_children.2 (.inl hc)) hbecomes (hformed.part hc')
  · obtain ⟨f', hf', hbecomes⟩ := hr.exists_fn? hf
    have hbody := ih f.body (Expr.mem_children.2 (.inr ⟨f, hf, List.mem_append_right _ (by simp)⟩))
      hbecomes.body (hformed.fn hf').2
    have hparams := walkList_chaining h hold (fun p => F.param (F.fn he hf)) hbecomes.params
    rw [Lambda.walk_eq]
    refine hparams.next ((Param.requireParams_yields f.params f'.params).next ?_)
    refine (hbody.bind fun b' => ?_).congr (or_self_iff)
    split
    · exact .pure
    · exact .of_reaches (Lambda.ofExprs_reaches (hformed.fn hf').1 b')

/-- What can be made of a tree, if it can bind its parameters, is made. -/
theorem Visitor.apply_chaining_failsIff (h : Replacement.InOrder rs)
    (hold : ∀ r ∈ rs, F.nodes r.old) (hnew : ∀ r ∈ rs, F.nodes r.new) (he : F.nodes e)
    (hformed : e'.WellFormed) (hbecomes : e.Becomes (.chaining rs d) e') :
    FailsIff (fun _ => True) ((Visitor.replacing rs d).apply e) E False := by
  -- on the depth, for the way into a new node, and on the tree, for the way into its parts
  induction d using Nat.strongRecOn generalizing e e' with
  | ind d ihd =>
    induction e using Expr.byChildren generalizing e' with
    | h e ih =>
      rcases Expr.becomes_chaining.1 hbecomes with ⟨s, hs, k, rfl, rfl, hr⟩ | ⟨hne, hr⟩
      · rw [apply_of_judge_put (judge_replacing_of_some (h.find?_old hs) k)]
        exact walk_chaining_failsIff h hold (hnew s hs) hformed hr fun c hc _ hbecomes hformed =>
          ihd k (Nat.lt_succ_self k) (Forest.child (hnew s hs) hc) hformed hbecomes
      · rw [apply_of_judge_enter (judge_replacing_of_none
          (Replacement.find?_eq_none_of_ne hold he hne) d)]
        exact walk_chaining_failsIff h hold he hformed hr fun c hc _ hbecomes hformed =>
          ih c hc (Forest.child he hc) hformed hbecomes

/-! ## Both runs -/

/-- What the first replacement makes. -/
theorem Expr.substitute_first {r : Replacement} (h : Replacement.InOrder (r :: rs))
    (hold : F.nodes r.old) (hnew : F.nodes r.new) (hr : r.new.WellFormed) (he : F.nodes e)
    (heformed : e.WellFormed) (hF : F.Below u.next)
    (hm : outcome (e.substitute [r]) u = (.ok m, u')) :
    ∃ G, F ≤ G ∧ G.Below u'.next ∧ G.nodes m ∧ m.WellFormed ∧ e.Becomes (.replacing [r]) m := by
  obtain ⟨G, hFG, hG, hmG, hfirst⟩ := substitute_becomes (Replacement.flat_one h.head_below)
    (by simpa using hold) (by simpa using hnew) he hF hm
  exact ⟨G, hFG, hG, hmG, ends_iff.1 (substitute_ends (by simpa using hr) heformed) hm, hfirst⟩

/-- If something can be made of a tree, making one replacement after the other succeeds and makes
the same. -/
theorem Expr.substituteEach_of_chaining (h : Replacement.InOrder rs)
    (hold : ∀ r ∈ rs, F.nodes r.old) (hnew : ∀ r ∈ rs, F.nodes r.new)
    (hrs : ∀ r ∈ rs, r.new.WellFormed) (he : F.nodes e) (heformed : e.WellFormed)
    (hF : F.Below u.next) (hformed : e'.WellFormed) (hbecomes : e.Becomes (.chaining rs d) e') :
    ∃ e₂ u', outcome (e.substituteEach rs) u = (.ok e₂, u') ∧ e'.SameTree e₂ := by
  induction rs generalizing e F u with
  | nil =>
    refine ⟨e, u, rfl, hbecomes.relabel_eq (fun _ => Judgement.chaining_stands) (fun hputs => ?_)
      fun _ => rfl⟩
    cases d with
    | zero => exact hputs.elim
    | succ d =>
      obtain ⟨r, hr, -⟩ := hputs
      cases hr
  | cons r rs ih =>
    obtain ⟨old, source⟩ := r
    obtain ⟨p, rfl : old = .param p⟩ := h.param List.mem_cons_self
    have hp : F.nodes (.param p) := hold _ List.mem_cons_self
    have hs : F.nodes source := hnew _ List.mem_cons_self
    have hne : source ≠ .param p :=
      h.new_ne (r := ⟨.param p, source⟩) List.mem_cons_self List.mem_cons_self
    obtain ⟨m, u₁, hm, -, -⟩ := ((substitute_failsIff hp hs hne h.head_below he heformed).reaches
      (hbecomes.not_blocks h hformed)).exists_outcome (s := u) trivial
    obtain ⟨G, hFG, hG, hmG, hmformed, hfirst⟩ := substitute_first h hp hs
      (hrs _ List.mem_cons_self) he heformed hF hm
    obtain ⟨e₂, u', hrun, hsame⟩ := ih h.tail
      (fun s hs => hFG.1 _ (hold s (List.mem_cons_of_mem _ hs)))
      (fun s hs => hFG.1 _ (hnew s (List.mem_cons_of_mem _ hs)))
      (fun s hs => hrs s (List.mem_cons_of_mem _ hs)) hmG hmformed hG
      (hfirst.split_chaining h hbecomes)
    refine ⟨e₂, u', ?_, hsame⟩
    rw [substituteEach, List.foldlM_cons, outcome_bind_of_ok hm]
    exact hrun

/-- What making one replacement after the other makes of a tree, all of them can make. -/
theorem Expr.chaining_of_substituteEach (h : Replacement.InOrder rs)
    (hold : ∀ r ∈ rs, F.nodes r.old) (hnew : ∀ r ∈ rs, F.nodes r.new)
    (hrs : ∀ r ∈ rs, r.new.WellFormed) (he : F.nodes e) (heformed : e.WellFormed)
    (hF : F.Below u.next) (hrun : outcome (e.substituteEach rs) u = (.ok e₂, u')) :
    e₂.WellFormed ∧ e.Becomes (.chaining rs rs.length) e₂ := by
  induction rs generalizing e F u with
  | nil =>
    obtain ⟨rfl, -⟩ := outcome_pure_ok.1 hrun
    exact ⟨heformed, .refl (fun _ => .inr (Judgement.chaining_enters.2 (by simp))) e⟩
  | cons r rs ih =>
    rw [substituteEach, List.foldlM_cons] at hrun
    obtain ⟨m, u₁, hm, hrest⟩ := outcome_bind_ok.1 hrun
    obtain ⟨G, hFG, hG, hmG, hmformed, hfirst⟩ := substitute_first h (hold _ List.mem_cons_self)
      (hnew _ List.mem_cons_self) (hrs _ List.mem_cons_self) he heformed hF hm
    obtain ⟨hformed, hbecomes⟩ := ih h.tail
      (fun s hs => hFG.1 _ (hold s (List.mem_cons_of_mem _ hs)))
      (fun s hs => hFG.1 _ (hnew s (List.mem_cons_of_mem _ hs)))
      (fun s hs => hrs s (List.mem_cons_of_mem _ hs)) hmG hmformed hG hrest
    exact ⟨hformed, hfirst.comp_chaining h hbecomes⟩

/-- Replacing many parameters at once comes to the same as replacing them one by one. The old nodes
are different parameters and each comes before all that occur in its new node. Then substituting the
list succeeds exactly if making one replacement after the other does, and both make the same tree
over the same parameters. -/
theorem Expr.substitute_one_by_one (h : Replacement.InOrder rs)
    (hold : ∀ r ∈ rs, F.nodes r.old) (hnew : ∀ r ∈ rs, F.nodes r.new)
    (hrs : ∀ r ∈ rs, r.new.WellFormed) (he : F.nodes e) (heformed : e.WellFormed)
    (hF : F.Below t.next) (hF' : F.Below u.next) :
    ((∃ e₁ t', outcome (e.substitute rs) t = (.ok e₁, t')) ↔
      ∃ e₂ u', outcome (e.substituteEach rs) u = (.ok e₂, u')) ∧
    ∀ e₁ t' e₂ u', outcome (e.substitute rs) t = (.ok e₁, t') →
      outcome (e.substituteEach rs) u = (.ok e₂, u') → e₁.SameTree e₂ := by
  have each {e₁ : Expr} {t' : Trail} (hall : outcome (e.substitute rs) t = (.ok e₁, t')) :
      ∃ e₂ u', outcome (e.substituteEach rs) u = (.ok e₂, u') ∧ e₁.SameTree e₂ := by
    obtain ⟨-, -, -, -, hbecomes⟩ := substitute_chains hold hnew he hF hall
    exact substituteEach_of_chaining h hold hnew hrs he heformed hF'
      (ends_iff.1 (substitute_ends hrs heformed) hall) hbecomes
  refine ⟨⟨fun ⟨e₁, t', hall⟩ => ?_, fun ⟨e₂, u', hrun⟩ => ?_⟩, fun e₁ t' e₂ u' hall hrun => ?_⟩
  · obtain ⟨e₂, u', hrun, -⟩ := each hall
    exact ⟨e₂, u', hrun⟩
  · obtain ⟨hformed, hbecomes⟩ :=
      chaining_of_substituteEach h hold hnew hrs he heformed hF' hrun
    have hreaches := (Visitor.apply_chaining_failsIff (E := fun _ => True) h hold hnew he hformed
      hbecomes).reaches not_false
    rw [substitute, h.check_eq_pure, pure_bind]
    obtain ⟨e₁, t', hall, -, -⟩ := hreaches.exists_outcome (s := t) trivial
    exact ⟨e₁, t', hall⟩
  · obtain ⟨e₂', u₂, hrun', hsame⟩ := each hall
    obtain rfl := Except.ok.inj (congrArg Prod.fst (hrun'.symm.trans hrun))
    exact hsame

/-- A new node that mentions the parameter replaced after it, which a lambda binds. -/
theorem Expr.substitute_one_by_one_dependent :
    let p : Param := ⟨0, "p", .int⟩
    let q : Param := ⟨1, "q", .int⟩
    let o : Param := ⟨2, "o", .int⟩
    let sum : Expr := .binary 3 .int .add (.param q) (.param q)
    let e : Expr := .lambda 6 ⟨5, [q], .binary 4 .int .add (.param p) (.param q)⟩
    let rs : List Replacement := [⟨.param p, sum⟩, ⟨.param q, .param o⟩]
    ∃ e₁ t e₂ u, outcome (e.substitute rs) { next := 7 } = (.ok e₁, t) ∧
      outcome (e.substituteEach rs) { next := 7 } = (.ok e₂, u) ∧ e₁.SameTree e₂ := by
  intro p q o sum e rs
  let f : Lambda := ⟨5, [q], .binary 4 .int .add (.param p) (.param q)⟩
  let F : Forest := .ofLists [.param p, .param q, .param o, sum, f.body, e] [f]
    (by decide) (by decide) (by simp [Expr.parts, sum, f, e]) (by simp [Expr.fn?, sum, f, e])
    (by simp [f]) (by simp)
  have hrs : Replacement.InOrder rs :=
    { param := fun hr => by
        rcases List.mem_pair.1 hr with rfl | rfl
        · exact ⟨p, rfl⟩
        · exact ⟨q, rfl⟩
      apart := List.pairwise_pair.2 rfl
      new := fun hr hs => by
        rcases List.mem_pair.1 hr with rfl | rfl <;> rcases List.mem_pair.1 hs with rfl | rfl <;>
          rfl
      order := fun {i j _ _} hr hs hoccurs => by
        rcases i with _ | _ | i <;> rcases j with _ | _ | j <;> cases hr <;> cases hs <;>
          first | exact Nat.zero_lt_one | cases hoccurs }
  have hF : F.Below 7 := Forest.below_ofLists (by decide) (by decide)
  have heformed : e.WellFormed := wellFormed_lambda.2 ⟨by simp, by simp⟩
  obtain ⟨hends, hsame⟩ :=
    substitute_one_by_one (F := F) (t := { next := 7 }) (u := { next := 7 }) hrs
    (by simp [F, Forest.ofLists, rs]) (by simp [F, Forest.ofLists, rs]) (by simp [rs, sum])
    (by simp [F, Forest.ofLists]) heformed hF hF
  obtain ⟨e₁, t, hall⟩ : ∃ e₁ t, outcome (e.substitute rs) { next := 7 } = (.ok e₁, t) :=
    ⟨_, _, rfl⟩
  obtain ⟨e₂, u, heach⟩ := hends.1 ⟨e₁, t, hall⟩
  exact ⟨e₁, t, e₂, u, hall, heach, hsame e₁ t e₂ u hall heach⟩

end

end

end

end ObjectMapping
