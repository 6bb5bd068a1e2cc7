import ObjectMapping.Proofs.MatchedRuns
import ObjectMapping.Proofs.Provenance

/-!
# Equal functions

Functions are compared by the place of prepared code that they come from, and not by what they have
captured. Two equal functions of a program run one and the same lambda, but they may have been made
in different calls of the code around it, and what they yield may differ
(`Function.call_ne_of_equal`).

`Knowledge.Reached.call_of_equal` is the main statement : equal functions behave alike if they have
captured the same values.
-/

namespace ObjectMapping

open RunM

/-! ## Functions of one place -/

/-- The lambda `(a, b) => y => a`. -/
def Lambda.pick : Lambda :=
  ⟨2, [⟨0, "a", .int⟩, ⟨1, "b", .int⟩],
    .lambda 3 ⟨4, [⟨5, "y", .int⟩], .param ⟨0, "a", .int⟩⟩⟩

/-- What `(a, b) => y => a` yields on two numbers, prepared under the stamp `0`. -/
def Function.picking (i j : Int64) : Function :=
  ⟨⟨4, [⟨5, "y", .int⟩], .param ⟨0, "a", .int⟩⟩, [[⟨0, .int i⟩, ⟨1, .int j⟩]],
    ⟨.run 0, [0]⟩, false⟩

/-- What a program has met that calls `(a, b) => y => a` twice. -/
def Knowledge.picking (i j k l : Int64) : Knowledge :=
  ⟨{ next := 1 }, [.function (.picking k l), .function (.picking i j),
    .function ⟨.pick, [], ⟨.run 0, []⟩, false⟩]⟩

theorem Knowledge.reached_picking (i j k l : Int64) : (picking i j k l).Reached := by
  have hbody {S : Supply} : Lambda.pick.body.Over S := Expr.over_lambda.2 (Expr.over_param _)
  have hprepared : Reached ⟨{ next := 1 }, [.function ⟨.pick, [], ⟨.run 0, []⟩, false⟩]⟩ :=
    .prepare (.start {}) hbody rfl
  have hargs {S : Supply} (i j : Int64) : ∀ v ∈ [Value.int i, .int j], v.Over S := fun v hv =>
    Value.over_of_isPlain (by rcases List.mem_pair.1 hv with rfl | rfl <;> rfl)
  have hfirst : Reached ⟨{ next := 1 }, [.function (.picking i j),
      .function ⟨.pick, [], ⟨.run 0, []⟩, false⟩]⟩ :=
    .run hprepared (Host.bare_supplied _ 1) (.call (hprepared.over (.head _)) (hargs i j)) rfl
  exact .run hfirst (Host.bare_supplied _ 1)
    (.call (hfirst.over (.tail _ (.head _))) (hargs k l)) rfl

/-- Two calls of `(a, b) => y => a` yield equal functions, and one of them yields `1` where the
other one yields `2`. -/
theorem Function.call_ne_of_equal :
    ∃ (K : Knowledge) (f g : Function), K.Reached ∧ K.supply.functions f ∧ K.supply.functions g ∧
      (Value.function f).equal (.function g) = true ∧
      outcome (f.call (Host.bare 1) [.int 0]) K.trail = (.ok (.int 1), K.trail) ∧
      outcome (g.call (Host.bare 1) [.int 0]) K.trail = (.ok (.int 2), K.trail) ∧
      (Value.int 1).equal (.int 2) = false :=
  ⟨.picking 1 0 2 0, .picking 1 0, .picking 2 0, Knowledge.reached_picking 1 0 2 0,
    Value.functions_of (.tail _ (.head _)), Value.functions_of (.head _), rfl, rfl, rfl, rfl⟩

/-! ## Calls in place of each other -/

/-- Two equal functions that a program has met, with the same values for what they capture, can be
called in place of each other : they end with the same error, or with values that are the same but
for bindings that are never looked up, and that compare alike with every value. -/
theorem Knowledge.Reached.call_of_equal {K : Knowledge} {host : Host} {f g : Function}
    (hK : K.Reached) (hf : K.supply.functions f) (hg : K.supply.functions g)
    (hequal : (Value.function f).equal (.function g) = true)
    (henv : f.lambda.CapturesAlike .same (fun _ => True) f.env g.env)
    (hhost : host.Impartial .same fun _ => True) :
    g.lambda = f.lambda ∧ g.quoted = f.quoted ∧ ∀ args t,
      EndsLike (fun v w => v.Indiscernible w ∧ ∀ x : Value, x.equal v = x.equal w)
        (outcome (f.call host args) t) (outcome (g.call host args) t) := by
  obtain ⟨T, hT⟩ := hK.exists_layout
  have hsite : f.site = g.site := by simpa only [Value.equal, beq_iff_eq] using hequal
  obtain ⟨hlambda, hquoted⟩ :=
    T.lambda_eq (hT.supply_le.1 f hf) (hT.supply_le.1 g hg) hsite
  have hakin : f.Akin .same (fun _ => True) g :=
    ⟨hlambda, trivial, henv, .inl (Placement.same.child hsite 0)⟩
  refine ⟨hlambda, hquoted, fun args t => ?_⟩
  have hargs : List.Forall₂ Value.Indiscernible args args :=
    List.forall₂_same.2 fun v _ => .refl v
  have hcalls := Function.call_matched (ρ := .same) hhost host.fills_same Placement.covers_same
    hakin hargs
  exact (hcalls.imp fun _ h => ⟨h, fun x => (Value.Indiscernible.refl x).equal_eq h⟩).endsLike t

/-- Two calls of `(a, b) => y => a` with one value for `a`. -/
theorem Knowledge.Reached.call_of_equal_picking :
    (Knowledge.picking 1 0 1 5).Reached ∧ ∀ args t,
      EndsLike (fun v w => v.Indiscernible w ∧ ∀ x : Value, x.equal v = x.equal w)
        (outcome ((Function.picking 1 0).call (Host.bare 1) args) t)
        (outcome ((Function.picking 1 5).call (Host.bare 1) args) t) := by
  have hK := Knowledge.reached_picking 1 0 1 5
  have hf : (Knowledge.picking 1 0 1 5).supply.functions (.picking 1 0) :=
    Value.functions_of (.tail _ (.head _))
  have hg : (Knowledge.picking 1 0 1 5).supply.functions (.picking 1 5) :=
    Value.functions_of (.head _)
  have henv : (Function.picking 1 0).lambda.CapturesAlike .same (fun _ => True)
      (Function.picking 1 0).env (Function.picking 1 5).env := by
    intro x hx
    obtain rfl := Expr.free_param.1 hx.2
    exact .some (Value.Indiscernible.refl _)
  exact ⟨hK, (hK.call_of_equal hf hg rfl henv (Host.bare_impartial _ _ 1)).2.2⟩

end ObjectMapping
