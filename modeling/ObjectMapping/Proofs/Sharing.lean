import ObjectMapping.Proofs.Advancing
import ObjectMapping.Proofs.Congruence
import ObjectMapping.Proofs.Exploring

/-!
# What substitution leaves shared

A new node may hold old ones, whose new nodes may hold others : `Judgement.chaining` says what a
list of replacements makes of a tree if it is gone into so deeply (`Visitor.replacing_follows`
covers the lists in which no new node holds an old one).

A visit to a node comes to the node itself or to one with an identity of its own
(`Visitor.walk_kept_or_new`), never to another node that was there before. So no old node is left in
what a substitution makes, if no new node is an old one. From that it follows that the same
substitution leaves the result as it is, and that a tree which holds an old node becomes another
tree. `Expr.substitute_shares` is the main statement.
-/

namespace ObjectMapping

open RunM

/-! ## Nodes that are kept and nodes that are made -/

section

variable {v : Visitor RunM} {J : Judgement} {D F F₀ : Forest} {e e' : Expr} {t t' : Trail} {n : Nat}

/-- The visitor makes the second node of the first, in a run over a forest that holds `F₀`. -/
def Visitor.Makes (v : Visitor RunM) (F₀ : Forest) (c c' : Expr) : Prop :=
  ∃ F t t', F₀ ≤ F ∧ F.Below t.next ∧ outcome (v.apply c) t = (.ok c', t')

/-- A visitor that puts in the place of a node what a visit to it makes. -/
theorem Visitor.Follows.makes (hv : v.Follows (fun _ => True) D F₀ J) :
    (Visitor.mk fun c => do return .put (← v.apply c)).Follows (fun _ => True) D F₀
      (.of (v.Makes F₀)) where
  le := hv.le
  keeps _ _ := trivial
  judge {F c verdict t t'} hF₀ hc hF _ hrun := by
    obtain ⟨c', t₁, hc', hpure⟩ := outcome_bind_ok.1 hrun
    obtain ⟨rfl, rfl⟩ := outcome_pure_ok.1 hpure
    obtain ⟨-, G, hFG, hG, hnode, -⟩ := hv.apply hF₀ hc hF trivial hc'
    exact ⟨trivial, G, hFG, hG, hnode, F, t, t₁, hF₀, hF, hc'⟩

/-- The visit to the parts of a node makes a node over what it makes of the parts. -/
theorem Visitor.Follows.walk_makes (hv : v.Follows (fun _ => True) D F₀ J) (hF₀ : F₀ ≤ F)
    (he : D.nodes e) (hF : F.Below t.next) (h : outcome (e.walk v) t = (.ok e', t')) :
    e.Rebuilt (.of (v.Makes F₀)) e' := by
  rw [Visitor.walk_congr (w := Visitor.mk fun c => do return .put (← v.apply c))
    fun c _ => (Visitor.apply_of_judge_put rfl).symm] at h
  obtain ⟨-, -, -, -, -, hrebuilt⟩ := ((hv.makes.walk e).1 he).made hF₀ hF trivial h
  exact hrebuilt

/-- The visit to a lambda makes one over what it makes of the parameters and the body. -/
theorem Visitor.Follows.walkFn_makes (hv : v.Follows (fun _ => True) D F₀ J) {f f' : Lambda}
    (hF₀ : F₀ ≤ F) (hf : D.fns f) (hF : F.Below t.next)
    (h : outcome (f.walk v) t = (.ok f', t')) : f.Becomes (.of (v.Makes F₀)) f' := by
  rw [Visitor.walkFn_congr (w := Visitor.mk fun c => do return .put (← v.apply c))
    fun c _ => (Visitor.apply_of_judge_put rfl).symm] at h
  obtain ⟨-, -, -, -, -, hbecomes⟩ := hv.makes.walkFn hF₀ hf hF trivial h
  exact hbecomes

/-- The visit to the parts of a node comes to the node itself or to a new one. -/
theorem Visitor.walk_kept_or_new (hv : ∀ d, (v.judge d).Advances)
    (h : outcome (e.walk v) t = (.ok e', t')) : e' = e ∨ t.next ≤ e'.id := by
  have any {α : Type} {run : RunM α} (hrun : Keeps (fun s : Trail => t.next ≤ s.next) run) :
      Gives (fun s : Trail => t.next ≤ s.next) run fun _ => True := hrun.imp fun _ _ _ _ => trivial
  have keepOrRemake {same : Bool} {make : NodeId → Expr}
      (hid : same = false → ∀ i, (make i).id = i) :
      Gives (fun s : Trail => t.next ≤ s.next) (Expr.keepOrRemake same e make : RunM Expr)
        fun e' => e' = e ∨ t.next ≤ e'.id := by
    cases same with
    | true => exact .pure (.inl rfl)
    | false =>
      intro s hs
      exact ⟨Nat.le_succ_of_le hs, fun _ h => .inr (by rw [← Except.ok.inj h, hid rfl]; exact hs)⟩
  suffices hgives : Gives (fun s : Trail => t.next ≤ s.next) (e.walk v)
      fun e' => e' = e ∨ t.next ≤ e'.id from (hgives t (Nat.le_refl _)).2 e' (by rw [h])
  cases hf : e.fn? with
  | none =>
    have hparts :=
      walkList_gives fun d (_ : d ∈ e.parts) => any (apply_advances hv d (.above t.next))
    rw [Expr.walk_of_parts hf]
    refine hparts.bind fun ds hds => keepOrRemake fun hsame i => ?_
    exact (Expr.madeOver_withParts i hf hds.1).id_eq hsame
  | some f =>
    rw [Expr.walk_of_fn hf]
    exact (any (walkFn_advances hv f (.above t.next))).bind fun _ _ =>
      keepOrRemake fun _ _ => Expr.id_withFn hf

end

/-! ## Replacements that lead to others -/

/-- An old node gives way to its new node, in the parts of which this goes on at most so deeply, and
every other node is entered. -/
def Judgement.chaining (rs : List Replacement) : Nat → Judgement
  | 0 => ⟨fun e => ∀ r ∈ rs, e ≠ r.old, fun _ _ => False, fun _ => False⟩
  | d + 1 => ⟨fun e => ∀ r ∈ rs, e ≠ r.old,
      fun e e' => ∃ r ∈ rs, e = r.old ∧ r.new.Rebuilt (chaining rs d) e', fun _ => False⟩

section

variable {rs : List Replacement} {d : Nat} {e e' : Expr} {F F₀ : Forest} {t t' u : Trail}

@[simp]
theorem Judgement.chaining_enters :
    (Judgement.chaining rs d).enters e ↔ ∀ r ∈ rs, e ≠ r.old := by
  cases d <;> rfl

@[simp]
theorem Judgement.chaining_stands : ¬ (Judgement.chaining rs d).stands e := by
  cases d <;> exact not_false

/-- Where the bound on the depth is reached, an old node ends the run. -/
theorem Visitor.outcome_judge_replacing_zero {new : Expr}
    (h : Replacement.find? rs e = some new) (t : Trail) :
    outcome ((Visitor.replacing rs 0).judge e) t = (.error .exhausted, t) := by
  obtain ⟨r, hr, hsame, -⟩ := Replacement.exists_of_find? h
  have hold : Replacement.isOld rs e = true := List.any_eq_true.2 ⟨r, hr, hsame⟩
  simp only [Visitor.replacing, hold, if_true]
  rfl

/-- Replacing nodes puts in the place of an old node what it makes of the new one. -/
theorem Visitor.replacing_chains (hold : ∀ r ∈ rs, F₀.nodes r.old)
    (hnew : ∀ r ∈ rs, F₀.nodes r.new) (d : Nat) :
    (Visitor.replacing rs d).Follows (fun _ => True) F₀ F₀ (.chaining rs d) := by
  have enter {d : Nat} {F : Forest} {e : Expr} {verdict : Verdict} {t t' : Trail}
      (hfind : Replacement.find? rs e = none) (hF : F.Below t.next)
      (hrun : outcome ((Visitor.replacing rs d).judge e) t = (.ok verdict, t')) :
      Made (fun _ => True) F t' fun G => (Judgement.chaining rs d).Allows G e verdict := by
    rw [judge_replacing_of_none hfind] at hrun
    obtain ⟨rfl, rfl⟩ := outcome_pure_ok.1 hrun
    exact .intro trivial hF (Judgement.chaining_enters.2 fun r hr =>
      Expr.ne_of_not_same (Replacement.find?_eq_none_iff.1 hfind r hr))
  induction d with
  | zero =>
    refine ⟨F₀.le_refl, fun _ _ => trivial, fun {F e verdict t t'} _ _ hF _ hrun => ?_⟩
    cases hfind : Replacement.find? rs e with
    | none => exact enter hfind hF hrun
    | some new =>
      rw [outcome_judge_replacing_zero hfind] at hrun
      cases hrun
  | succ d ih =>
    refine ⟨F₀.le_refl, fun _ _ => trivial, fun {F e verdict t t'} hF₀ he hF _ hrun => ?_⟩
    cases hfind : Replacement.find? rs e with
    | none => exact enter hfind hF hrun
    | some new =>
      obtain ⟨r, hr, hsame, rfl⟩ := Replacement.exists_of_find? hfind
      obtain rfl := F₀.eq_of_same (hold r hr) he hsame
      rw [judge_replacing_of_some hfind] at hrun
      obtain ⟨e', t₁, hwalk, hpure⟩ := outcome_bind_ok.1 hrun
      obtain ⟨rfl, rfl⟩ := outcome_pure_ok.1 hpure
      obtain ⟨-, G, hFG, hG, hnode, hrebuilt⟩ :=
        ((ih.walk r.new).1 (hnew r hr)).made hF₀ hF trivial hwalk
      exact ⟨trivial, G, hFG, hG, hnode, r, hr, rfl, hrebuilt⟩

/-- What a substitution makes of an expression, whatever the new nodes hold. -/
theorem Expr.substitute_chains (hold : ∀ r ∈ rs, F.nodes r.old) (hnew : ∀ r ∈ rs, F.nodes r.new)
    (he : F.nodes e) (hF : F.Below t.next) (h : outcome (e.substitute rs) t = (.ok e', t')) :
    ∃ G, F ≤ G ∧ G.Below t'.next ∧ G.nodes e' ∧ e.Becomes (.chaining rs rs.length) e' := by
  obtain ⟨u, t₁, hcheck, happly⟩ := outcome_bind_ok.1 h
  obtain rfl := Replacement.outcome_check hcheck
  exact ((Visitor.replacing_chains hold hnew _).apply F.le_refl he hF trivial happly).2

/-! ## No old node is left -/

/-- What the visit to the parts of a node makes holds no old node, if the node is none and what it
makes of the parts holds none. -/
theorem Visitor.walk_clears (hold : ∀ r ∈ rs, F₀.nodes r.old) (hnew : ∀ r ∈ rs, F₀.nodes r.new)
    (he : F₀.nodes e) (hnot : Replacement.isOld rs e = false)
    (ih : ∀ c ∈ e.children, ∀ {c'}, (Visitor.replacing rs d).Makes F₀ c c' →
      c'.All (Replacement.isOld rs · = false))
    (hF₀ : F₀ ≤ F) (hF : F.Below t.next)
    (h : outcome (e.walk (Visitor.replacing rs d)) t = (.ok e', t')) :
    e'.All (Replacement.isOld rs · = false) := by
  refine .mk ?_ fun c' hc' => ?_
  · rcases Visitor.walk_kept_or_new (judge_replacing_advances rs d) h with rfl | hid
    · exact hnot
    · refine Replacement.isOld_eq_false_iff.2 fun r hr => beq_false_of_ne ?_
      exact Nat.ne_of_lt (Nat.lt_of_lt_of_le (hF.node (hF₀.1 _ (hold r hr))) hid)
  · have hrebuilt := (replacing_chains hold hnew d).walk_makes hF₀ he hF h
    obtain ⟨c, hc, hmakes⟩ := forall₂_mem_right hrebuilt.children hc'
    exact ih c hc (Expr.becomes_of.1 hmakes)

/-- What replacing nodes makes holds no old node, if no new node is one. -/
theorem Visitor.apply_clears (hold : ∀ r ∈ rs, F₀.nodes r.old) (hnew : ∀ r ∈ rs, F₀.nodes r.new)
    (hnot : ∀ r ∈ rs, Replacement.isOld rs r.new = false) (he : F₀.nodes e)
    (h : (Visitor.replacing rs d).Makes F₀ e e') : e'.All (Replacement.isOld rs · = false) := by
  -- on the depth, for the way into a new node, and on the tree, for the way into its parts
  induction d using Nat.strongRecOn generalizing e e' with
  | ind d ihd =>
    induction e using Expr.byChildren generalizing e' with
    | h e ih =>
      obtain ⟨F, t, t', hF₀, hF, hrun⟩ := h
      cases hfind : Replacement.find? rs e with
      | none =>
        rw [apply_of_judge_enter (judge_replacing_of_none hfind d)] at hrun
        exact walk_clears hold hnew he (Replacement.isOld_eq_false_of_find? hfind)
          (fun c hc {_} => ih c hc (Forest.child he hc)) hF₀ hF hrun
      | some new =>
        obtain ⟨r, hr, -, rfl⟩ := Replacement.exists_of_find? hfind
        cases d with
        | zero =>
          rw [apply, visit, outcome_bind_of_error (outcome_judge_replacing_zero hfind t)] at hrun
          cases hrun
        | succ d =>
          rw [apply_of_judge_put (judge_replacing_of_some hfind d)] at hrun
          exact walk_clears hold hnew (hnew r hr) (hnot r hr)
            (fun c hc {_} => ihd d (Nat.lt_succ_self d) (Forest.child (hnew r hr) hc)) hF₀ hF hrun

/-! ## Substituting once more -/

/-- A list with which a substitution has gone well passes the check wherever it is made. -/
theorem Replacement.check_eq_pure {x : Unit} (h : outcome (check rs) t = (.ok x, t')) :
    check rs = pure () := by
  refine check_of_not_unending fun hunending => ?_
  obtain ⟨fault, -, hreject⟩ := check_of_unending hunending
  rw [hreject] at h
  cases h

/-- A tree that holds no old node is left as it is. -/
theorem Expr.outcome_substitute_of_clear (hcheck : Replacement.check rs = pure ())
    (hclear : e.outermost (Replacement.isOld rs) = []) (u : Trail) :
    outcome (e.substitute rs) u = (.ok e, u) := by
  have happly : Yields (· = u) ((Visitor.replacing rs rs.length).apply e) e :=
    Visitor.apply_yields_of_walk (fun d hd s hs => by
      rw [Visitor.judge_replacing_of_not_old hd]; exact ⟨hs, rfl⟩)
      (Visitor.walk_yields fun d hd s hs => by
        rw [Visitor.judge_replacing_of_not_old hd]; exact ⟨hs, rfl⟩) hclear
  obtain ⟨hu, he⟩ := happly u rfl
  rw [substitute, hcheck]
  exact Prod.ext he hu

/-- Substitution is complete and leaves shared what it need not touch. If no new node is an old one
and the substitution succeeds, no old node is anywhere in the result, among the parameters of
lambdas included. Substituting once more makes nothing and gives back the result itself. And the
result is the expression itself exactly if no old node occurs in that. -/
theorem Expr.substitute_shares (hold : ∀ r ∈ rs, F.nodes r.old) (hnew : ∀ r ∈ rs, F.nodes r.new)
    (he : F.nodes e) (hF : F.Below t.next)
    (hnot : ∀ r ∈ rs, ∀ s ∈ rs, s.old.same r.new = false)
    (h : outcome (e.substitute rs) t = (.ok e', t')) :
    (e'.All fun d => ∀ r ∈ rs, r.old.same d = false) ∧
      (∀ u, outcome (e'.substitute rs) u = (.ok e', u)) ∧
      (e'.same e = true ↔ ∀ r ∈ rs, r.old.occursIn e = false) := by
  obtain ⟨u, t₁, hcheck, happly⟩ := outcome_bind_ok.1 h
  obtain rfl := Replacement.outcome_check hcheck
  have hclear : e'.All (Replacement.isOld rs · = false) :=
    Visitor.apply_clears hold hnew (fun r hr => Replacement.isOld_eq_false_iff.2 (hnot r hr)) he
      ⟨F, _, _, F.le_refl, hF, happly⟩
  have hclear' : e'.All fun d => ∀ r ∈ rs, r.old.same d = false :=
    hclear.imp fun _ hd => Replacement.isOld_eq_false_iff.1 hd
  refine ⟨hclear', ?_, fun hsame r hr => ?_, fun hnone => ?_⟩
  · exact outcome_substitute_of_clear (Replacement.check_eq_pure hcheck)
      (outermost_eq_nil_iff_all.2 hclear)
  · obtain ⟨G, hFG, -, hnode, -⟩ := substitute_chains hold hnew he hF h
    obtain rfl := G.eq_of_same hnode (hFG.1 _ he) hsame
    rw [occursIn_eq_false_iff, outermost_eq_nil_iff_all]
    exact hclear'.imp fun _ hd => hd r hr
  · have hkept := outcome_substitute_of_clear (Replacement.check_eq_pure hcheck)
      (Replacement.outermost_isOld fun r hr => occursIn_eq_false_iff.1 (hnone r hr)) t₁
    obtain rfl := Except.ok.inj (congrArg Prod.fst (h.symm.trans hkept))
    exact same_refl e'

/-- A new node that holds the other old node, and an old node that is a parameter of a lambda. -/
theorem Expr.substitute_shares_chained :
    let p : Param := ⟨0, "p", .object "A"⟩
    let o : Param := ⟨1, "o", .object "A"⟩
    let x : Expr := .member 2 (.param p) ⟨"A", "x", .int⟩
    let y : Expr := .member 3 (.param p) ⟨"A", "y", .int⟩
    let one : Expr := .constant 4 .int (.int 1)
    let e : Expr := .lambda 7 ⟨6, [p], .binary 5 .int .add x one⟩
    let rs : List Replacement := [⟨x, y⟩, ⟨.param p, .param o⟩]
    ∃ e' t, outcome (e.substitute rs) { next := 8 } = (.ok e', t) ∧
      (e'.All fun d => ∀ r ∈ rs, r.old.same d = false) ∧
      (∀ u, outcome (e'.substitute rs) u = (.ok e', u)) ∧
      (e'.same e = true ↔ ∀ r ∈ rs, r.old.occursIn e = false) := by
  intro p o x y one e rs
  let f : Lambda := ⟨6, [p], .binary 5 .int .add x one⟩
  let F : Forest := .ofLists [.param p, .param o, x, y, one, f.body, e] [f]
    (by decide) (by decide) (by simp [Expr.parts, x, y, one, f, e])
    (by simp [Expr.fn?, x, y, one, f, e]) (by simp [f]) (by simp)
  obtain ⟨e', t, hrun⟩ : ∃ e' t, outcome (e.substitute rs) { next := 8 } = (.ok e', t) :=
    ⟨_, _, rfl⟩
  exact ⟨e', t, hrun, substitute_shares (F := F) (by simp [F, Forest.ofLists, rs])
    (by simp [F, Forest.ofLists, rs]) (by simp [F, Forest.ofLists])
    (Forest.below_ofLists (by decide) (by decide)) (by simp [rs, x, y, p, o, Expr.same, Expr.id])
    hrun⟩

end

end ObjectMapping
