import ObjectMapping.Proofs.Advancing
import ObjectMapping.Proofs.Replacing

/-!
# Runs that make nodes

`RunM.LeadsTo` says what a run makes over a forest, wherever it starts. There is one lemma for each
maker : new nodes and parameters, default values and the guard around a body
(`Expr.guarding_leadsTo`), the lambda that an operand holds, and its body over a source
(`Lambda.inline_leadsTo`).
-/

namespace ObjectMapping

open RunM

/-! ## What is inlined -/

/-- The mapping expression that a value holds. -/
inductive Value.Holds (host : Host) : Value → Lambda → Prop
  | mapper (m : Mapper) : Value.Holds host (.mapper m) m.expression
  | reference {ref : MapperReference} {m : Mapper} : host.filled ref.id = some m →
    Value.Holds host (.mapperReference ref) m.expression
  | expression (f : Lambda) : Value.Holds host (.expression f) f
  | function (f : Function) : Value.Holds host (.function f) f.lambda

theorem Value.Holds.eq_of_givenMapper {host : Host} {context : String} {v : Value} {m : Mapper}
    {g : Lambda} (h : v.Holds host g) (hm : Native.givenMapper host context (some v) = .ok m) :
    g = m.expression := by
  cases h with
  | mapper n =>
    obtain rfl := Except.ok.inj hm
    rfl
  | reference hfilled =>
    simp only [Native.givenMapper, hfilled] at hm
    obtain rfl := Except.ok.inj hm
    rfl
  | expression | function => cases hm

/-- The body of a lambda over a source. -/
def Lambda.InlinedOver (g : Lambda) (source e : Expr) : Prop :=
  ∃ p, g.params = [p] ∧ p.ty = source.ty ∧ g.body.Becomes (.replacing [⟨.param p, source⟩]) e

/-- An expression that has the default value of a type. -/
def Expr.HasDefault (e : Expr) (ty : Ty) : Prop :=
  ∀ host call env site, e.evalIn host call env site = pure (.defaultOf ty)

/-- A node for the default value of a type. -/
def Expr.IsDefault (ty : Ty) (e : Expr) : Prop :=
  ∃ i, e = .default i ty ∨ e = .constant i ty .null

/-! ## Runs that make nodes -/

/-- Wherever the run starts over a forest that holds `F`, it makes a forest where `P` of the forest
and the result. -/
abbrev RunM.LeadsTo {α : Type} (F : Forest) (run : RunM α) (P : Forest → α → Prop) : Prop :=
  Leads (fun _ : Trail => True) F run P

section

variable {α : Type} {F : Forest}

/-- A run that gives no identity back leads to what its results have in common. -/
theorem Upholds.leadsTo {run : RunM α} {P : α → Prop}
    (h : ∀ n, Upholds (fun t : Trail => n ≤ t.next) run fun r => ∀ a, r = .ok a → P a) :
    LeadsTo F run fun _ a => P a := by
  refine ⟨fun {G s s' a} _ hG _ hrun => ?_⟩
  obtain ⟨hnext, hP⟩ := h s.next s (Nat.le_refl _)
  rw [hrun] at hnext hP
  exact .intro trivial (hG.mono hnext) (hP a rfl)

theorem RunM.leadsTo_fail {e : Failure} {P : Forest → α → Prop} : LeadsTo F (fail e) P :=
  ⟨fun _ _ _ h => nomatch (Prod.mk.inj h).1⟩

theorem RunM.leadsTo_reject {e : ArgumentFault} {P : Forest → α → Prop} :
    LeadsTo F (reject e) P :=
  leadsTo_fail

/-- A new node over parts in the forest is in a larger one. -/
theorem RunM.leadsTo_make {make : NodeId → Expr} (hid : ∀ i, (make i).id = i)
    (hparts : ∀ i, ∀ p ∈ (make i).parts, F.nodes p)
    (hfn : ∀ i f, (make i).fn? = some f → F.fns f) :
    LeadsTo F (do return make (← fresh) : RunM Expr) fun G e => G.nodes e ∧ ∃ i, e = make i := by
  refine ⟨fun {G s s' e} hFG hG _ h => ?_⟩
  obtain ⟨i, s₁, hfresh, hpure⟩ := outcome_bind_ok.1 h
  obtain ⟨rfl, rfl⟩ := outcome_pure_ok.1 hpure
  obtain ⟨rfl, rfl⟩ := outcome_fresh_ok.1 hfresh
  obtain ⟨H, hGH, hH, he⟩ := Forest.exists_grow (F := G) (e := make s.next) (by rwa [hid])
    (fun p hp => hFG.1 _ (hparts _ p hp)) fun f hf => hFG.2 _ (hfn _ f hf)
  rw [hid] at hH
  exact ⟨trivial, H, hGH, hH, he, _, rfl⟩

theorem Param.make_leadsTo (name : String) (ty : Ty) :
    LeadsTo F (Param.make name ty) fun G p => G.nodes (.param p) ∧ p.ty = ty := by
  refine ⟨fun {G s s' p} hFG hG _ h => ?_⟩
  obtain ⟨-, H, hGH, hH, hp⟩ := Forest.exists_makeParam hG h
  obtain ⟨rfl, -⟩ := outcome_makeParam h
  exact ⟨trivial, H, hGH, hH, hp, rfl⟩

theorem Lambda.ofExprs_leadsTo {es : List Expr} {b : Expr} (hes : ∀ e ∈ es, F.nodes e)
    (hb : F.nodes b) :
    LeadsTo F (Lambda.ofExprs es b) fun G f => G.fns f ∧ es = f.paramExprs ∧ f.body = b := by
  refine ⟨fun {G s s' f} hFG hG _ h => ?_⟩
  obtain ⟨hid, rfl, rfl, hnext⟩ := outcome_ofExprs h
  obtain ⟨H, hGH, hH, hf⟩ := Forest.exists_growFn (f := f) (hid ▸ hG)
    (fun p hp => hFG.1 _ (hes _ (List.mem_map_of_mem hp))) (hFG.1 _ hb)
  replace hH : H.Below s'.next := by
    rw [hnext, ← hid]
    exact hH
  exact ⟨trivial, H, hGH, hH, hf, rfl, rfl⟩

/-! ## Inlining -/

variable {host : Host} {cx : BuildContext} {source : Expr} {g : Lambda} {i : NodeId} {ty : Ty}
  {v : Value}

/-- What is taken from a constant is what the constant holds. -/
theorem Expr.heldLambda_leadsTo :
    LeadsTo F ((Expr.constant i ty v).heldLambda host cx) fun _ g => v.Holds host g := by
  refine Upholds.leadsTo fun n => ?_
  refine (evaluate_constant_upholds host i ty v (.above n)).bind (fun w hw => ?_) nofun
  obtain rfl := hw w rfl
  have holds {g : Lambda} (h : w.Holds host g) : Upholds (fun t : Trail => n ≤ t.next)
      (pure g : RunM Lambda) fun r => ∀ g, r = .ok g → w.Holds host g :=
    .pure fun _ hg => Except.ok.inj hg ▸ h
  cases w with
  | mapper m =>
    exact Upholds.bind (BuildContext.refuseCurrent_advances cx _ (.above n))
      (fun _ _ => holds (.mapper m)) nofun
  | mapperReference ref =>
    refine Upholds.bind (BuildContext.refuseCurrent_advances cx _ (.above n)) (fun _ _ => ?_) nofun
    split
    · rename_i hfilled
      exact holds (.reference hfilled)
    · exact .throw nofun
  | expression f => exact holds (.expression f)
  | function f => exact holds (.function f)
  | _ => exact .throw nofun

theorem Lambda.inline_leadsTo (hg : F.fns g) (hs : F.nodes source) :
    LeadsTo F (g.inline source) fun G e => G.nodes e ∧ g.InlinedOver source e := by
  refine ⟨fun {G s s' e} hFG hG _ h => ?_⟩
  obtain ⟨p, hp, hty, hbecomes, H, hGH, hH, he⟩ :=
    Lambda.inline_becomes (hFG.2 _ hg) (hFG.1 _ hs) hG h
  exact ⟨trivial, H, hGH, hH, he, p, hp, hty, hbecomes⟩

theorem Expr.mkDefault_leadsTo :
    LeadsTo F (mkDefault ty) fun G e => G.nodes e ∧ e.IsDefault ty ∧ e.HasDefault ty := by
  unfold mkDefault
  split
  · refine (leadsTo_make (fun _ => rfl) (by simp [parts]) (by simp [fn?])).imp fun _ h => ?_
    obtain ⟨he, i, rfl⟩ := h
    exact ⟨he, ⟨i, .inl rfl⟩, fun _ _ _ _ => rfl⟩
  · rename_i hty
    refine (leadsTo_make (fun _ => rfl) (by simp [parts]) (by simp [fn?])).imp fun _ h => ?_
    obtain ⟨he, i, rfl⟩ := h
    refine ⟨he, ⟨i, .inr rfl⟩, fun _ _ _ _ => ?_⟩
    cases ty <;> first | rfl | exact absurd rfl hty

/-- A guard compares the source with its default value, and has the default value of the body. -/
theorem Expr.guarding_leadsTo {body : Expr} (hs : F.nodes source) (hb : F.nodes body) :
    LeadsTo F (guarding source body) fun G e => G.nodes e ∧ ∃ i j bty d result,
      e = .conditional i result.ty (.binary j bty .equal source d) result body ∧
      (d.IsDefault source.ty ∧ d.HasDefault source.ty) ∧
      result.IsDefault body.ty ∧ result.HasDefault body.ty := by
  refine mkDefault_leadsTo.bind fun {G result} hFG h => ?_
  obtain ⟨hresult, hresultDefault⟩ := h
  refine mkDefault_leadsTo.bind fun {H d} hGH h => ?_
  obtain ⟨hd, hdDefault⟩ := h
  have hFH := F.le_trans hFG hGH
  refine (leadsTo_make (fun _ => rfl) (fun _ => by simpa [parts] using ⟨hFH.1 _ hs, hd⟩)
    (by simp [fn?])).bind fun {K test} hHK h => ?_
  obtain ⟨htest, j, rfl⟩ := h
  refine (leadsTo_make (fun _ => rfl) (fun _ => ?_) (by simp [fn?])).imp fun {L e} _ h => ?_
  · simpa [parts] using ⟨htest, hHK.1 _ (hGH.1 _ hresult), hHK.1 _ (hFH.1 _ hb)⟩
  · obtain ⟨he, i, rfl⟩ := h
    exact ⟨he, i, j, _, d, result, rfl, hdDefault, hresultDefault⟩

end

end ObjectMapping
