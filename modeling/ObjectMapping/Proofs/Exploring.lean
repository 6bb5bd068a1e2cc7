import Mathlib.Data.List.Chain
import Mathlib.Data.List.Perm.Subperm
import Mathlib.Data.List.Range
import Mathlib.Logic.Relation
import ObjectMapping.Proofs.Replacing

/-!
# Which replacements come to an end

The parts of a new node are replaced in turn, so one replacement leads to others
(`Replacement.LeadsTo`), and the run does not end if a replacement leads back to itself.
`Replacement.check` follows the replacements depth first and finds out exactly that
(`Replacement.cyclic?_eq_none_iff`). Where none leads back to itself, replacements are nested at
most as deeply as the list is long (`Replacement.nested_of_acyclic`), so the bound on the depth is
never felt and the run ends on every tree. `Replacement.substitute_refuses_unending` is the main
statement.
-/

namespace ObjectMapping

open RunM

/-! ## Depth-first search -/

section

variable {next : Nat → List Nat} {fuel : Nat} {path done done' is : List Nat} {i k : Nat}

/-- Positions in the order in which a search is done with them, the latest first : all that a
position leads to comes after it. -/
inductive Settled (next : Nat → List Nat) : List Nat → Prop
  | nil : Settled next []
  | cons {i : Nat} {done : List Nat} : (∀ j ∈ next i, j ∈ done) → Settled next done →
    Settled next (i :: done)

/-- What a settled position leads to is settled. -/
theorem Settled.closed (h : Settled next done) : ∀ i ∈ done, ∀ j ∈ next i, j ∈ done := by
  induction h with
  | nil => exact fun i hi => absurd hi List.not_mem_nil
  | cons hnext _ ih =>
    intro i hi j hj
    rcases List.mem_cons.1 hi with rfl | hi
    · exact List.mem_cons_of_mem _ (hnext j hj)
    · exact List.mem_cons_of_mem _ (ih i hi j hj)

/-- No settled position leads back to itself. -/
theorem Settled.acyclic (h : Settled next done) :
    ∀ i ∈ done, ¬ Relation.TransGen (fun i j => j ∈ next i) i i := by
  induction h with
  | nil => exact fun i hi => absurd hi List.not_mem_nil
  | @cons i done hnext hdone ih =>
    have stays {a b : Nat} (hab : Relation.TransGen (fun i j => j ∈ next i) a b) (ha : a ∈ done) :
        b ∈ done := by
      induction hab with
      | single hb => exact hdone.closed _ ha _ hb
      | tail _ hc ihb => exact hdone.closed _ ihb _ hc
    intro k hk
    rcases List.mem_cons.1 hk with rfl | hk
    · intro hcycle
      -- the first step already leaves to what was settled before
      have hback : k ∈ done := by
        rcases Relation.TransGen.head'_iff.1 hcycle with ⟨j, hj, hjk⟩
        rcases hjk.cases_head with rfl | ⟨_, hstep, hrest⟩
        · exact hnext _ hj
        · exact stays (Relation.TransGen.head' hstep hrest) (hnext j hj)
      exact ih k hback hcycle
    · exact ih k hk

/-- What a search of one position does, a search of several does one after the other. -/
theorem Settled.foldlM {f : List Nat → Nat → Except Nat (List Nat)}
    (hf : ∀ j ∈ is, ∀ {d d'}, f d j = .ok d' → Settled next d →
      Settled next d' ∧ d ⊆ d' ∧ j ∈ d')
    (h : is.foldlM f done = .ok done') (hdone : Settled next done) :
    Settled next done' ∧ done ⊆ done' ∧ ∀ j ∈ is, j ∈ done' := by
  induction is generalizing done with
  | nil =>
    obtain rfl := Except.ok.inj h
    exact ⟨hdone, List.Subset.refl _, fun j hj => absurd hj List.not_mem_nil⟩
  | cons i is ih =>
    rw [List.foldlM_cons] at h
    cases hi : f done i with
    | error k => rw [hi] at h; cases h
    | ok d =>
      rw [hi] at h
      obtain ⟨hd, hsub, hmem⟩ := hf i (by simp) hi hdone
      obtain ⟨hdone', hsub', hall⟩ := ih (fun j hj => hf j (by simp [hj])) h hd
      refine ⟨hdone', fun _ hd => hsub' (hsub hd), fun j hj => ?_⟩
      rcases List.mem_cons.1 hj with rfl | hj
      · exact hsub' hmem
      · exact hall j hj

/-- A search that ends has settled the position. -/
theorem Replacement.explore_ok (h : explore next fuel path done i = .ok done')
    (hdone : Settled next done) : Settled next done' ∧ done ⊆ done' ∧ i ∈ done' := by
  induction fuel generalizing path done i done' with
  | zero => cases h
  | succ fuel ih =>
    rw [explore] at h
    by_cases hmem : i ∈ done
    · rw [if_pos (by simpa using hmem)] at h
      obtain rfl := Except.ok.inj h
      exact ⟨hdone, List.Subset.refl _, hmem⟩
    rw [if_neg (by simpa using hmem)] at h
    by_cases hpath : i ∈ path
    · rw [if_pos (by simpa using hpath)] at h
      cases h
    rw [if_neg (by simpa using hpath)] at h
    cases hrest : (next i).foldlM (explore next fuel (i :: path)) done with
    | error k => rw [hrest] at h; cases h
    | ok d =>
      rw [hrest] at h
      obtain rfl := Except.ok.inj h
      obtain ⟨hd, hsub, hall⟩ := Settled.foldlM (fun j _ => ih) hrest hdone
      exact ⟨.cons hall hd, fun j hj => List.mem_cons_of_mem _ (hsub hj), List.mem_cons_self⟩

/-- A search of several positions that comes back somewhere does so in the search of one. -/
theorem exists_error_of_foldlM {f : List Nat → Nat → Except Nat (List Nat)}
    (h : is.foldlM f done = .error k) : ∃ j ∈ is, ∃ d, f d j = .error k := by
  induction is generalizing done with
  | nil => cases h
  | cons i is ih =>
    rw [List.foldlM_cons] at h
    cases hi : f done i with
    | error k' =>
      rw [hi] at h
      obtain rfl := Except.error.inj h
      exact ⟨i, by simp, done, hi⟩
    | ok d =>
      rw [hi] at h
      obtain ⟨j, hj, hd⟩ := ih h
      exact ⟨j, by simp [hj], hd⟩

/-- Different positions below `n` are at most `n`. -/
theorem length_le_of_nodup {n : Nat} {l : List Nat} (h : l.Nodup) (hn : ∀ i ∈ l, i < n) :
    l.length ≤ n := by
  have hsub : l ⊆ List.range n := fun i hi => List.mem_range.2 (hn i hi)
  simpa using (List.subperm_of_subset h hsub).length_le

/-- A search that does not end has come back to a position that leads to itself, if it may follow
every way without repetition. -/
theorem Replacement.explore_error {n : Nat} (hnext : ∀ i, ∀ j ∈ next i, j < n)
    (h : explore next fuel path done i = .error k)
    (hpath : ∀ p ∈ path, Relation.TransGen (fun i j => j ∈ next i) p i) (hnodup : path.Nodup)
    (hbelow : ∀ p ∈ path, p < n) (hi : i < n) (hfuel : n < fuel + path.length) :
    Relation.TransGen (fun i j => j ∈ next i) k k := by
  induction fuel generalizing path done i with
  | zero =>
    have := length_le_of_nodup hnodup hbelow
    omega
  | succ fuel ih =>
    rw [explore] at h
    by_cases hmem : i ∈ done
    · rw [if_pos (by simpa using hmem)] at h
      cases h
    rw [if_neg (by simpa using hmem)] at h
    by_cases hback : i ∈ path
    · rw [if_pos (by simpa using hback)] at h
      obtain rfl := Except.error.inj h
      exact hpath i hback
    rw [if_neg (by simpa using hback)] at h
    cases hrest : (next i).foldlM (explore next fuel (i :: path)) done with
    | ok d => rw [hrest] at h; cases h
    | error k' =>
      rw [hrest] at h
      obtain rfl := Except.error.inj h
      obtain ⟨j, hj, d, hd⟩ := exists_error_of_foldlM hrest
      refine ih hd (fun p hp => ?_) (List.nodup_cons.2 ⟨hback, hnodup⟩) ?_ (hnext i j hj) ?_
      · rcases List.mem_cons.1 hp with rfl | hp
        · exact .single hj
        · exact (hpath p hp).tail hj
      · exact List.forall_mem_cons.2 ⟨hi, hbelow⟩
      · rw [List.length_cons]
        omega

end

/-! ## Which replacements lead to which -/

/-- A node is come to below a tree on the way down from part to part, without passing a node with
the property. -/
inductive Expr.MetBelow (hit : Expr → Bool) : Expr → Expr → Prop
  | child {e d : Expr} : d ∈ e.children → MetBelow hit e d
  | deeper {e d c : Expr} : d ∈ e.children → hit d = false → MetBelow hit d c → MetBelow hit e c

theorem Expr.mem_outermostBelow {hit : Expr → Bool} {e c : Expr} :
    c ∈ e.outermostBelow hit ↔ ∃ d ∈ e.children, c ∈ d.outermost hit := by
  have list (es : List Expr) :
      c ∈ outermostList hit es ↔ ∃ d ∈ es, c ∈ d.outermost hit := by
    induction es with
    | nil => simp [outermostList]
    | cons e es ih => simp [outermostList, ih, outermost]
  have option (o : Option Expr) :
      c ∈ outermostOption hit o ↔ ∃ d ∈ o.toList, c ∈ d.outermost hit := by
    cases o <;> simp [outermostOption, outermost]
  have assignments (as : List Assignment) : c ∈ Assignment.outermostList hit as ↔
      ∃ d ∈ as.map (·.value), c ∈ d.outermost hit := by
    induction as with
    | nil => simp [Assignment.outermostList]
    | cons a as ih =>
      obtain ⟨m, e⟩ := a
      simp [Assignment.outermostList, ih, outermost]
  have param (p : Param) : c ∈ (Expr.param p).outermost hit ↔ hit (.param p) = true ∧
      c = .param p := by
    simp only [outermost, orBelow, outermostBelow]
    split <;> simp_all
  have fn (f : Lambda) : c ∈ f.outermost hit ↔ ∃ d ∈ f.children, c ∈ d.outermost hit := by
    obtain ⟨i, ps, b⟩ := f
    have hparams : c ∈ (ps.map Expr.param).filter hit ↔
        ∃ d ∈ ps.map Expr.param, c ∈ d.outermost hit := by
      simp only [List.mem_filter, List.mem_map, exists_exists_and_eq_and, param]
      constructor
      · rintro ⟨⟨p, hp, rfl⟩, h⟩
        exact ⟨p, hp, h, rfl⟩
      · rintro ⟨p, hp, h, rfl⟩
        exact ⟨⟨p, hp, rfl⟩, h⟩
    simp only [Lambda.outermost, List.mem_append, hparams, Lambda.children, Lambda.paramExprs,
      or_and_right, exists_or, List.mem_singleton, exists_eq_left, outermost]
  cases e with
  | param | constant | default => simp [outermostBelow, children, parts]
  | member | unary | binary | conditional => simp [outermostBelow, children, parts, outermost]
  | call id ty op receiver arguments =>
    simp [outermostBelow, children, parts, option, list, or_and_right, exists_or]
  | lambda | quote => exact fn _
  | construct id ty as bs =>
    simp only [outermostBelow, children, parts, assignments, List.mem_append, or_and_right,
      exists_or]
  | previous id ty fallback => exact option _

theorem Expr.mem_outermost {hit : Expr → Bool} {e c : Expr} : c ∈ e.outermost hit ↔
    hit e = true ∧ c = e ∨ hit e = false ∧ c ∈ e.outermostBelow hit := by
  unfold outermost orBelow
  split <;> simp_all

/-- The nodes that are found below a tree are those with the property that are come to. -/
theorem Expr.mem_outermostBelow_iff {hit : Expr → Bool} {e c : Expr} :
    c ∈ e.outermostBelow hit ↔ hit c = true ∧ e.MetBelow hit c := by
  constructor
  · induction e using byChildren generalizing c with
    | h e ih =>
      intro hc
      obtain ⟨d, hd, hc⟩ := mem_outermostBelow.1 hc
      rcases mem_outermost.1 hc with ⟨hhit, rfl⟩ | ⟨hhit, hc⟩
      · exact ⟨hhit, .child hd⟩
      · obtain ⟨hcc, hmet⟩ := ih d hd hc
        exact ⟨hcc, .deeper hd hhit hmet⟩
  · rintro ⟨hcc, hmet⟩
    induction hmet with
    | child hd => exact mem_outermostBelow.2 ⟨_, hd, mem_outermost.2 (.inl ⟨hcc, rfl⟩)⟩
    | deeper hd hhit _ ih =>
      exact mem_outermostBelow.2 ⟨_, hd, mem_outermost.2 (.inr ⟨hhit, ih hcc⟩)⟩

namespace Replacement

variable {rs : List Replacement} {i j : Nat} {e : Expr}

/-- A replacement leads to the first one of an old node that is come to below its new node. -/
def LeadsTo (rs : List Replacement) (i j : Nat) : Prop :=
  ∃ r, rs[i]? = some r ∧ ∃ d, r.new.MetBelow (isOld rs) d ∧ rs.findIdx? (·.old.same d) = some j

theorem isOld_of_findIdx? (h : rs.findIdx? (·.old.same e) = some i) : isOld rs e = true := by
  obtain ⟨hi, hsame, -⟩ := List.findIdx?_eq_some_iff_getElem.1 h
  exact List.any_eq_true.2 ⟨rs[i], List.getElem_mem hi, hsame⟩

theorem mem_leadsTo_iff :
    j ∈ (rs[i]?.map (leadsTo rs)).getD [] ↔ LeadsTo rs i j := by
  cases h : rs[i]? with
  | none => simp [LeadsTo, h]
  | some r =>
    simp only [Option.map_some, Option.getD_some, leadsTo, List.mem_eraseDups, List.mem_filterMap,
      Expr.mem_outermostBelow_iff, LeadsTo, h, Option.some.injEq, exists_eq_left']
    constructor
    · rintro ⟨d, ⟨-, hmet⟩, hj⟩
      exact ⟨d, hmet, hj⟩
    · rintro ⟨d, hmet, hj⟩
      exact ⟨d, ⟨isOld_of_findIdx? hj, hmet⟩, hj⟩

theorem leads_eq : (fun i j => j ∈ (rs[i]?.map (leadsTo rs)).getD []) = LeadsTo rs := by
  funext i j
  exact propext mem_leadsTo_iff

theorem LeadsTo.lt_left (h : LeadsTo rs i j) : i < rs.length := by
  obtain ⟨r, hr, -⟩ := h
  exact (List.getElem?_eq_some_iff.1 hr).1

theorem LeadsTo.lt (h : LeadsTo rs i j) : j < rs.length := by
  obtain ⟨_, -, _, -, hj⟩ := h
  exact (List.findIdx?_eq_some_iff_getElem.1 hj).1

theorem cyclic?_eq_some (h : cyclic? rs = some i) : Relation.TransGen (LeadsTo rs) i i := by
  unfold cyclic? at h
  simp only at h
  split at h
  · cases h
  · rename_i k hk
    obtain rfl := Option.some.inj h
    obtain ⟨j, hj, d, hd⟩ := exists_error_of_foldlM hk
    have hcycle := explore_error (fun i j hij => (mem_leadsTo_iff.1 hij).lt) hd
      (fun p hp => absurd hp List.not_mem_nil) List.nodup_nil
      (fun p hp => absurd hp List.not_mem_nil) (List.mem_range.1 hj) (by simp)
    rwa [leads_eq] at hcycle

/-- No replacement is found to lead back to itself exactly if none does. -/
theorem cyclic?_eq_none_iff :
    cyclic? rs = none ↔ ∀ i, ¬ Relation.TransGen (LeadsTo rs) i i := by
  refine ⟨fun h => ?_, fun h => ?_⟩
  · unfold cyclic? at h
    simp only at h
    split at h
    · rename_i done hdone
      obtain ⟨hsettled, -, hall⟩ := Settled.foldlM (fun j _ => explore_ok) hdone .nil
      intro i hcycle
      obtain ⟨j, hij, -⟩ := Relation.TransGen.head'_iff.1 hcycle
      rw [← leads_eq] at hcycle
      exact hsettled.acyclic i (hall i (List.mem_range.2 hij.lt_left)) hcycle
    · cases h
  · cases hcyclic : cyclic? rs with
    | none => rfl
    | some i => exact absurd (cyclic?_eq_some hcyclic) (h i)

/-! ## What is refused -/

/-- A node would be replaced by itself, or a replacement leads back to itself. -/
def Unending (rs : List Replacement) : Prop :=
  (∃ r ∈ rs, r.old.same r.new = true) ∨ ∃ i, Relation.TransGen (LeadsTo rs) i i

instance : Decidable (Unending rs) :=
  decidable_of_iff ((∃ r ∈ rs, r.old.same r.new = true) ∨ cyclic? rs ≠ none) <| by
    rw [Ne, cyclic?_eq_none_iff, not_forall_not, Unending]

/-- Replacements that would not end are refused, with the old node of one of them. -/
theorem check_of_unending (h : Unending rs) :
    ∃ fault, (∃ r ∈ rs, fault = .replacedByItself r.old.text ∨
      fault = .occursInReplacement r.old.text) ∧ check rs = reject fault := by
  unfold check
  cases hself : rs.find? fun r => r.old.same r.new with
  | some r => exact ⟨_, ⟨r, List.mem_of_find?_eq_some hself, .inl rfl⟩, rfl⟩
  | none =>
    have hnone : ¬ ∃ r ∈ rs, r.old.same r.new = true := by simpa using hself
    obtain ⟨k, hk⟩ := h.resolve_left hnone
    cases hcyclic : cyclic? rs with
    | none => exact absurd hk (cyclic?_eq_none_iff.1 hcyclic k)
    | some i =>
      obtain ⟨j, hij, -⟩ := Relation.TransGen.head'_iff.1 (cyclic?_eq_some hcyclic)
      obtain ⟨r, hr, -⟩ := hij
      refine ⟨_, ⟨r, List.mem_of_getElem? hr, .inr rfl⟩, ?_⟩
      simp only [Option.bind_some, hr]

/-- All other replacements pass. -/
theorem check_of_not_unending (h : ¬ Unending rs) : check rs = pure () := by
  obtain ⟨hself, hcycle⟩ := not_or.1 h
  have hfind : (rs.find? fun r => r.old.same r.new) = none := by simpa using hself
  have hcyclic : cyclic? rs = none := cyclic?_eq_none_iff.2 (not_exists.1 hcycle)
  simp only [check, hfind, hcyclic]
  rfl

end Replacement

/-! ## Visits that agree -/

section

variable {m : Type → Type} [Monad m] [MonadLiftT RunM m] {v w : Visitor m}

theorem Visitor.walkList_congr {es : List Expr} (h : ∀ d ∈ es, v.apply d = w.apply d) :
    Expr.walkList v es = Expr.walkList w es := by
  induction es with
  | nil => rfl
  | cons e es ih =>
    rw [Expr.walkList_cons, Expr.walkList_cons, h e (by simp), ih fun d hd => h d (by simp [hd])]

/-- Visits that do the same with the parameters and the body of a lambda do the same with it. -/
theorem Visitor.walkFn_congr {f : Lambda} (h : ∀ d ∈ f.children, v.apply d = w.apply d) :
    f.walk v = f.walk w := by
  rw [Lambda.walk_eq, Lambda.walk_eq, walkList_congr fun d hd => h d (List.mem_append_left _ hd),
    h f.body (List.mem_append_right _ (List.mem_singleton_self _))]

/-- Visits that do the same with the parts of a node do the same with the node. -/
theorem Visitor.walk_congr [LawfulMonad m] {e : Expr}
    (h : ∀ d ∈ e.children, v.apply d = w.apply d) : e.walk v = e.walk w := by
  cases hf : e.fn? with
  | none =>
    rw [Expr.children_of_parts hf] at h
    rw [Expr.walk_of_parts hf, Expr.walk_of_parts hf, walkList_congr h]
  | some f =>
    rw [Expr.children_of_fn? hf] at h
    rw [Expr.walk_of_fn hf, Expr.walk_of_fn hf, walkFn_congr h]

end

/-! ## The faults of a visit -/

/-- The faults that the run may end with have the property. -/
def Faults {σ α : Type} (run : Steps σ α) (E : Fault → Prop) : Prop :=
  Upholds (fun _ => True) run fun r => ∀ e, r = .error e → E e

namespace Faults

variable {σ α β : Type} {E : Fault → Prop} {run : Steps σ α}

theorem pure {a : α} : Faults (Pure.pure a : Steps σ α) E :=
  Upholds.pure fun _ h => by cases h

theorem throw {e : Fault} (he : E e) : Faults (MonadExcept.throw e : Steps σ α) E :=
  Upholds.throw fun _ h => Except.error.inj h ▸ he

theorem bind {f : α → Steps σ β} (hrun : Faults run E) (hf : ∀ a, Faults (f a) E) :
    Faults (run >>= f) E :=
  Upholds.bind hrun (fun a _ => hf a) fun e he _ h => Except.error.inj h ▸ he e rfl

theorem ite {c : Prop} [Decidable c] {x y : Steps σ α} (hx : Faults x E) (hy : Faults y E) :
    Faults (if c then x else y) E := by
  split
  · exact hx
  · exact hy

theorem mono {E' : Fault → Prop} (hE : ∀ e, E e → E' e) (h : Faults run E) : Faults run E' :=
  h.imp fun _ hr e he => hE e (hr e he)

theorem fresh : Faults fresh E :=
  fun _ _ => ⟨trivial, fun _ h => by cases h⟩

end Faults

/-- A lambda cannot bind what its parameters have become. -/
inductive Fault.OfBinder : Fault → Prop
  /-- something else than a parameter -/
  | lost (name : String) : OfBinder (.failed (.parameterLost name))
  /-- something else than a parameter, found when the lambda is made -/
  | notParameter (text : String) : OfBinder (.failed (.argument (.notParameter text)))
  /-- one parameter for two -/
  | twice (name : String) : OfBinder (.failed (.argument (.parameterTwice name)))

theorem Param.requireParams_faults (ps : List Param) (es : List Expr) :
    Faults (requireParams ps es) Fault.OfBinder := by
  induction ps generalizing es with
  | nil => exact .pure
  | cons p ps ih =>
    cases es with
    | nil => exact .pure
    | cons e es =>
      rw [requireParams]
      split
      · exact .bind (.throw (.lost _)) fun _ => ih es
      · exact ih es

theorem Lambda.ofExprs_faults (es : List Expr) (b : Expr) :
    Faults (ofExprs es b) Fault.OfBinder := by
  have params (seen : List Param) (es : List Expr) : Faults (paramsOf seen es) Fault.OfBinder := by
    induction es generalizing seen with
    | nil => exact .pure
    | cons e es ih =>
      rw [paramsOf]
      split
      · exact .throw (.notParameter _)
      · split
        · exact .bind (.throw (.twice _)) fun _ => (ih _).bind fun _ => .pure
        · exact (ih _).bind fun _ => .pure
  exact (params [] es).bind fun _ => Faults.fresh.bind fun _ => .pure

section

variable {E : Fault → Prop} {v : Visitor RunM}

theorem Visitor.walkList_faults {es : List Expr} (h : ∀ d ∈ es, Faults (v.apply d) E) :
    Faults (Expr.walkList v es) E := by
  induction es with
  | nil => exact .pure
  | cons e es ih =>
    rw [Expr.walkList_cons]
    exact (h e (by simp)).bind fun _ => (ih fun d hd => h d (by simp [hd])).bind fun _ => .pure

/-- What the visits to the parameters and the body of a lambda may end with, the visit to it may, or
else that they cannot be bound. -/
theorem Visitor.walkFn_faults (hE : ∀ e, Fault.OfBinder e → E e) {f : Lambda}
    (h : ∀ d ∈ f.children, Faults (v.apply d) E) : Faults (f.walk v) E := by
  rw [Lambda.walk_eq]
  refine (walkList_faults fun d hd => h d (List.mem_append_left _ hd)).bind fun es => ?_
  refine ((Param.requireParams_faults f.params es).mono hE).bind fun _ => ?_
  refine (h f.body (List.mem_append_right _ (List.mem_singleton_self _))).bind fun _ => ?_
  exact .ite .pure ((Lambda.ofExprs_faults _ _).mono hE)

/-- What the visits to the parts of a node may end with, the visit to the node may, or else that a
lambda cannot bind what its parameters have become. -/
theorem Visitor.walk_faults (hE : ∀ e, Fault.OfBinder e → E e) {e : Expr}
    (h : ∀ d ∈ e.children, Faults (v.apply d) E) : Faults (e.walk v) E := by
  have keepOrRemake {c : Bool} {make : NodeId → Expr} :
      Faults (Expr.keepOrRemake c e make : RunM Expr) E :=
    .ite .pure (Faults.fresh.bind fun _ => .pure)
  cases hf : e.fn? with
  | none =>
    rw [Expr.children_of_parts hf] at h
    rw [Expr.walk_of_parts hf]
    exact (walkList_faults h).bind fun _ => keepOrRemake
  | some f =>
    rw [Expr.children_of_fn? hf] at h
    rw [Expr.walk_of_fn hf]
    exact (walkFn_faults hE h).bind fun _ => keepOrRemake

end

/-! ## How deeply replacements are nested -/

namespace Replacement

variable {rs : List Replacement} {i j d : Nat} {e new : Expr}

/-- Replacements are nested at most so deeply where the tree is replaced in. -/
inductive Nested (rs : List Replacement) : Nat → Expr → Prop
  | enter {d : Nat} {e : Expr} : find? rs e = none → (∀ c ∈ e.children, Nested rs d c) →
    Nested rs d e
  | replace {d : Nat} {e new : Expr} : find? rs e = some new →
    (∀ c ∈ new.children, Nested rs d c) → Nested rs (d + 1) e

/-- A way from one replacement to the next, on from the replacement, is shorter than `d`. -/
def Shallow (rs : List Replacement) (d i : Nat) : Prop :=
  ∀ way, List.IsChain (LeadsTo rs) (i :: way) → way.length < d

theorem Shallow.of_leadsTo (h : Shallow rs (d + 1) i) (hij : LeadsTo rs i j) : Shallow rs d j :=
  fun way hway => by simpa using h (j :: way) (.cons_cons hij hway)

/-- A way on which nothing comes back has different replacements, so that it is no longer than the
list. -/
theorem shallow_of_acyclic (h : ∀ i, ¬ Relation.TransGen (LeadsTo rs) i i) (hi : i < rs.length) :
    Shallow rs rs.length i := by
  intro way hway
  have hpairs := (hway.imp fun _ _ => Relation.TransGen.single).pairwise
  have hnodup : (i :: way).Nodup := hpairs.imp fun hab => by
    rintro rfl
    exact h _ hab
  have hbelow : ∀ j ∈ i :: way, j < rs.length := by
    refine List.forall_mem_cons.2 ⟨hi, fun j hj => ?_⟩
    obtain ⟨k, -, hkj⟩ := Relation.TransGen.tail'_iff.1 ((List.pairwise_cons.1 hpairs).1 j hj)
    exact hkj.lt
  exact length_le_of_nodup hnodup hbelow

theorem findIdx?_of_find? (h : find? rs e = some new) :
    ∃ i r, rs.findIdx? (·.old.same e) = some i ∧ rs[i]? = some r ∧ r.new = new := by
  obtain ⟨r, hr, rfl⟩ := Option.map_eq_some_iff.1 h
  obtain ⟨hsame, i, hi, rfl, hfirst⟩ := List.find?_eq_some_iff_getElem.1 hr
  refine ⟨i, rs[i], ?_, List.getElem?_eq_getElem hi, rfl⟩
  exact List.findIdx?_eq_some_iff_getElem.2 ⟨hi, hsame, by simpa using hfirst⟩

theorem isOld_eq_false_of_find? (h : find? rs e = none) : isOld rs e = false :=
  isOld_eq_false_iff.2 (find?_eq_none_iff.1 h)

/-- Replacements are nested no more deeply than the ways from the old nodes that are met go on. -/
theorem nested_of_shallow (h : ∀ c i, c ∈ e.outermost (isOld rs) →
    rs.findIdx? (·.old.same c) = some i → Shallow rs d i) : Nested rs d e := by
  -- on the depth, for the way into a new node, and on the tree, for the way into its parts
  induction d using Nat.strongRecOn generalizing e with
  | ind d ihd =>
    induction e using Expr.byChildren with
    | h e ih =>
      cases hfind : find? rs e with
      | none =>
        refine .enter hfind fun c hc => ih c hc fun c' i hc' hi => h c' i ?_ hi
        refine Expr.mem_outermost.2 (.inr ⟨isOld_eq_false_of_find? hfind, ?_⟩)
        exact Expr.mem_outermostBelow.2 ⟨c, hc, hc'⟩
      | some new =>
        obtain ⟨i, r, hi, hr, rfl⟩ := findIdx?_of_find? hfind
        have hshallow := h e i (Expr.mem_outermost.2 (.inl ⟨isOld_of_findIdx? hi, rfl⟩)) hi
        cases d with
        | zero => exact absurd (hshallow [] (.singleton i)) (Nat.lt_irrefl 0)
        | succ d =>
          refine .replace hfind fun c hc => ihd d (Nat.lt_succ_self d) fun c' j hc' hj => ?_
          have hmet := Expr.mem_outermostBelow.2 ⟨c, hc, hc'⟩
          exact hshallow.of_leadsTo ⟨r, hr, c', (Expr.mem_outermostBelow_iff.1 hmet).2, hj⟩

/-- Where none leads back to itself, replacements are nested at most as deeply as the list is
long. -/
theorem nested_of_acyclic (h : ∀ i, ¬ Relation.TransGen (LeadsTo rs) i i) (e : Expr) :
    Nested rs rs.length e :=
  nested_of_shallow fun _ _ _ hi =>
    shallow_of_acyclic h (List.findIdx?_eq_some_iff_getElem.1 hi).1

end Replacement

/-! ## The run of a substitution -/

section

variable {rs : List Replacement} {d : Nat} {e : Expr}

theorem Visitor.apply_of_judge_enter {v : Visitor RunM} (h : v.judge e = pure .enter) :
    v.apply e = e.walk v := by
  rw [Visitor.apply, Visitor.visit, h, pure_bind]

theorem Visitor.apply_of_judge_put {v : Visitor RunM} {run : RunM Expr}
    (h : v.judge e = (do return .put (← run))) : v.apply e = run := by
  simp only [Visitor.apply, Visitor.visit, h, bind_assoc, pure_bind, bind_pure]

theorem Visitor.judge_replacing_of_none (h : Replacement.find? rs e = none) (d : Nat) :
    (Visitor.replacing rs d).judge e = pure .enter := by
  cases d with
  | zero => simp [Visitor.replacing, Replacement.isOld_eq_false_of_find? h]
  | succ d => simp only [Visitor.replacing, h]

theorem Visitor.judge_replacing_of_some {new : Expr} (h : Replacement.find? rs e = some new)
    (d : Nat) : (Visitor.replacing rs (d + 1)).judge e =
      (do return .put (← new.walk (Visitor.replacing rs d)) : RunM Verdict) := by
  simp only [Visitor.replacing, h]

/-- A bound on the depth that is not reached makes no difference. -/
theorem Replacement.Nested.apply_eq (h : Nested rs d e) {d' : Nat} (hd : d ≤ d') :
    (Visitor.replacing rs d').apply e = (Visitor.replacing rs d).apply e := by
  induction h generalizing d' with
  | enter hfind _ ih =>
    rw [Visitor.apply_of_judge_enter (Visitor.judge_replacing_of_none hfind _),
      Visitor.apply_of_judge_enter (Visitor.judge_replacing_of_none hfind _)]
    exact Visitor.walk_congr fun c hc => ih c hc hd
  | replace hfind _ ih =>
    obtain ⟨d', rfl⟩ := Nat.exists_eq_add_of_lt hd
    rw [Visitor.apply_of_judge_put (Visitor.judge_replacing_of_some hfind _),
      Visitor.apply_of_judge_put (Visitor.judge_replacing_of_some hfind _)]
    exact Visitor.walk_congr fun c hc => ih c hc (by omega)

/-- Where the bound on the depth is not reached, only a lambda may stand in the way. -/
theorem Replacement.Nested.faults (h : Nested rs d e) :
    Faults ((Visitor.replacing rs d).apply e) Fault.OfBinder := by
  induction h with
  | enter hfind _ ih =>
    rw [Visitor.apply_of_judge_enter (Visitor.judge_replacing_of_none hfind _)]
    exact Visitor.walk_faults (fun _ he => he) ih
  | replace hfind _ ih =>
    rw [Visitor.apply_of_judge_put (Visitor.judge_replacing_of_some hfind _)]
    exact Visitor.walk_faults (fun _ he => he) ih

/-- The first old node that is come to gives way to its new node, in the parts of which this goes
on. No bound is set to how often. -/
def Visitor.Replaces (v : Visitor RunM) (rs : List Replacement) : Prop :=
  ∀ e, v.judge e = match Replacement.find? rs e with
    | some new => (do return .put (← new.walk v) : RunM Verdict)
    | none => pure .enter

/-- Where a new node is entered with what is left of the depth, more would make no difference. -/
theorem Replacement.Nested.walk_eq {new : Expr} {n : Nat} (h : Nested rs n e)
    (hfind : find? rs e = some new) (hd : n ≤ d + 1) :
    new.walk (Visitor.replacing rs d) = new.walk (Visitor.replacing rs (d + 1)) := by
  cases h with
  | enter hnone _ =>
    rw [hnone] at hfind
    cases hfind
  | @replace n _ _ hsome hchildren =>
    obtain rfl := Option.some.inj (hsome.symm.trans hfind)
    refine Visitor.walk_congr fun c hc => ?_
    have hless := (hchildren c hc).apply_eq (show n ≤ d by omega)
    exact hless.trans ((hchildren c hc).apply_eq (by omega)).symm

/-- Where no replacement leads back to itself, the bound on the depth is never felt. -/
theorem Visitor.replacing_replaces
    (h : ∀ i, ¬ Relation.TransGen (Replacement.LeadsTo rs) i i) (hd : rs.length ≤ d) :
    (Visitor.replacing rs d).Replaces rs := by
  intro e
  cases hfind : Replacement.find? rs e with
  | none => exact judge_replacing_of_none hfind d
  | some new =>
    cases d with
    | zero =>
      obtain rfl := List.eq_nil_of_length_eq_zero (Nat.le_zero.1 hd)
      cases hfind
    | succ d =>
      rw [judge_replacing_of_some hfind, (Replacement.nested_of_acyclic h e).walk_eq hfind hd]

/-- Exactly the lists are refused, before any tree is looked at, in which a node would be replaced
by itself or a replacement leads back to itself. With any other list the run goes into the
replacements without bound, and ends on every tree : with a result, or because a lambda cannot bind
what its parameters have become. -/
theorem Replacement.substitute_refuses_unending (rs : List Replacement) :
    (Unending rs → ∃ fault, (∃ r ∈ rs, fault = .replacedByItself r.old.text ∨
        fault = .occursInReplacement r.old.text) ∧
      (∀ e : Expr, e.substitute rs = reject fault) ∧
      ∀ f : Lambda, f.substitute rs = reject fault) ∧
    (¬ Unending rs → ∀ d, rs.length ≤ d → (Visitor.replacing rs d).Replaces rs ∧
      (∀ e : Expr, e.substitute rs = (Visitor.replacing rs d).apply e ∧
        Faults (e.substitute rs) Fault.OfBinder) ∧
      ∀ f : Lambda, f.substitute rs = f.walk (Visitor.replacing rs d) ∧
        Faults (f.substitute rs) Fault.OfBinder) := by
  constructor
  · intro h
    obtain ⟨fault, hfault, hcheck⟩ := check_of_unending h
    refine ⟨fault, hfault, fun e => ?_, fun f => ?_⟩
    · rw [Expr.substitute, hcheck]
      rfl
    · rw [Lambda.substitute, hcheck]
      rfl
  · intro h d hd
    have hacyclic := not_exists.1 (not_or.1 h).2
    have hnested := nested_of_acyclic hacyclic
    have hexpr (e : Expr) : e.substitute rs = (Visitor.replacing rs rs.length).apply e := by
      rw [Expr.substitute, check_of_not_unending h, pure_bind]
    have hfn (f : Lambda) : f.substitute rs = f.walk (Visitor.replacing rs rs.length) := by
      rw [Lambda.substitute, check_of_not_unending h, pure_bind]
    refine ⟨Visitor.replacing_replaces hacyclic hd, fun e => ⟨?_, ?_⟩, fun f => ⟨?_, ?_⟩⟩
    · rw [hexpr, (hnested e).apply_eq hd]
    · rw [hexpr]
      exact (hnested e).faults
    · rw [hfn]
      exact Visitor.walkFn_congr fun c _ => ((hnested c).apply_eq hd).symm
    · rw [hfn]
      exact Visitor.walkFn_faults (fun _ he => he) fun c _ => (hnested c).faults

/-- A replacement that leads to another is accepted, and refused if that one leads back. -/
theorem Replacement.substitute_refuses_unending_chained :
    let a : Param := ⟨1, "a", .bool⟩
    let b : Param := ⟨2, "b", .int⟩
    let test : Expr := .binary 3 .bool .equal (.param b) (.constant 4 .int (.int 1))
    let chained : List Replacement := [⟨.param a, test⟩, ⟨.param b, .constant 5 .int (.int 7)⟩]
    let back : Expr := .unary 6 .int .negate (.param a)
    let circular : List Replacement := [⟨.param a, test⟩, ⟨.param b, back⟩]
    let e : Expr := .unary 7 .bool .not (.param a)
    ¬ Unending chained ∧ Unending circular ∧
      e.substitute chained = (Visitor.replacing chained 9).apply e ∧
      ∃ fault, e.substitute circular = reject fault := by
  intro a b test chained back circular e
  have hchained : ¬ Unending chained := by decide
  have hcircular : Unending circular := by decide
  obtain ⟨-, hexpr, -⟩ := (substitute_refuses_unending chained).2 hchained 9 (by decide)
  obtain ⟨fault, -, hrefused, -⟩ := (substitute_refuses_unending circular).1 hcircular
  exact ⟨hchained, hcircular, (hexpr e).1, fault, hrefused e⟩

end

end ObjectMapping
