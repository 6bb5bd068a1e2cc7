import ObjectMapping.Proofs.Tracking

/-!
# Rewritten expressions

An expression of the fragment that is rewritten by a judgement is tracked by what becomes of it, if
the judgement is sound : what it puts in the place of a node is tracked, and no lambda in the way
changes what has become of the parameters free in it. `Expr.Becomes.tracks` is the statement, by
induction on the fragment ; the evaluations may stand at different places, and the projections of
the expression itself may be run by other callers than the code around it (`Caller.Unrolls`).

`Judgement.replacing_sound` : replacing a parameter without capture is sound.
-/

namespace ObjectMapping

open RunM

variable {F : Forest} {n : NodeId}

/-- Callers, by the depth to which they nest calls, that run the functions made by evaluations with
an own stamp as their code says. -/
structure Caller.Unrolls (F : Forest) (n : NodeId) (host : Host) (own : Stamp → Prop)
    (c : Nat → Caller) : Prop where
  zero {f : Function} {vs : List Value} : own f.site.stamp → c 0 f vs = throw .exhausted
  succ {k : Nat} {f : Function} {vs : List Value} : own f.site.stamp →
    c (k + 1) f vs = f.run host (c k) vs
  tracks (k : Nat) : Caller.Tracks F n (c k) (Function.callWithin host)

theorem Function.callWithin_unrolls {host : Host} (hhost : host.Respects F n) (hF : F.Known n)
    (own : Stamp → Prop) : Caller.Unrolls F n host own (Function.callWithin host) :=
  ⟨fun _ => rfl, fun _ => rfl, Function.callWithin_tracks hhost hF⟩

namespace Judgement

/-- What has become of the free parameters of an expression is tracked, at whatever places. -/
def TracksParams (J : Judgement) (host : Host) (W : World F n) (env env' : Env) (e : Expr) : Prop :=
  ∀ ⦃y : Param⦄ ⦃e' : Expr⦄, e.Free y → (Expr.param y).Becomes J e' → ∀ call s s',
    ObjectMapping.Tracks W ((Expr.param y).evalIn host call env s)
      (fun d => e'.evalIn host (Function.callWithin host d) env' s') Value.Alike

/-- On the nodes of which `U` holds, what the judgement puts in is tracked, and what becomes of a
parameter has the same value inside of a projection as outside. -/
structure Sound (J : Judgement) (U : Expr → Prop) (F : Forest) (n : NodeId) (host : Host)
    (own : Stamp → Prop) (c : Nat → Caller) : Prop where
  node {e : Expr} : U e → F.nodes e
  part {e d : Expr} : U e → d ∈ e.parts → U d
  body {e : Expr} {f : Lambda} : U e → e.fn? = some f → U f.body
  stands {e : Expr} : ¬ J.stands e
  fn {e e' : Expr} {f : Lambda} : e.fn? = some f → e.Becomes J e' →
    ∃ f', e'.fn? = some f' ∧ f.Becomes J f'
  self {x x' : Param} {e' : Expr} : x.Becomes J x' → (Expr.param x).Becomes J e' → e' = .param x'
  outer {e e' : Expr} {f : Lambda} {x x' y : Param} : U e → e.fn? = some f → f.params = [x] →
    x.Becomes J x' → f.body.Free y → y ≠ x → (Expr.param y).Becomes J e' → ∀ v d env site,
      e'.evalIn host (Function.callWithin host d) (Binding.ofArgs [x'] [v] :: env) site =
        e'.evalIn host (Function.callWithin host d) env site
  puts {W : World F n} {env env' : Env} {e e' : Expr} : U e → e.FirstOrder → e.param? = none →
    J.puts e e' → J.TracksParams host W env env' e → ∀ k,
      e.EvalTracks host (c k) (Function.callWithin host) (fun s _ => own s.stamp) W env env' e'

end Judgement

section

variable {host : Host} {J : Judgement} {U : Expr → Prop} {own : Stamp → Prop} {c : Nat → Caller}
  {W V : World F n} {env env' : Env} {e d : Expr} {f : Lambda} {x x' : Param}

namespace Judgement.TracksParams

theorem mono (h : J.TracksParams host W env env' e) (hWV : W ≤ V) :
    J.TracksParams host V env env' e :=
  fun _ _ hy he call s s' => (h hy he call s s').mono hWV

theorem part (h : J.TracksParams host W env env' e) (hd : d ∈ e.parts) :
    J.TracksParams host W env env' d :=
  fun _ _ hy he => h (.part hd hy) he

/-- Inside of a projection the item is bound to alike values, and nothing else changes. -/
theorem body (hJ : J.Sound U F n host own c) (h : J.TracksParams host W env env' e) (hU : U e)
    (hf : e.fn? = some f) (hx : f.params = [x]) (hxx' : x.Becomes J x') {v w : Value}
    (hvw : v.Alike W w) :
    J.TracksParams host W (Binding.ofArgs [x] [v] :: env) (Binding.ofArgs [x'] [w] :: env')
      f.body := by
  intro y e' hy hbecomes call s s'
  have hfF := F.fn (hJ.node hU) hf
  by_cases hyx : y = x
  · subst hyx
    obtain rfl := hJ.self hxx' hbecomes
    simp only [Expr.evalIn, Env.lookup_push_self]
    exact .pure fun hV => hvw.mono hV
  · have hids : x.id ≠ y.id := fun h =>
      hyx (F.param_eq (F.param hfF (by simp [hx])) (F.free (F.body hfF) hy) h).symm
    have henv (call : Caller) : (Expr.param y).evalIn host call (Binding.ofArgs [x] [v] :: env) s =
        (Expr.param y).evalIn host call env s := by
      simp only [Expr.evalIn, Env.lookup_push_of_ne hids]
    simp only [henv, hJ.outer hU hf hx hxx' hy hyx hbecomes]
    exact h (.body hf (by simpa [hx] using hids) hy) hbecomes call s s'

end Judgement.TracksParams

theorem Native.project_tracks {run : Value → RunM Value} {run' : Nat → Value → RunM Value}
    {v w : Value} (kind : SequenceKind) (h : v.Alike W w)
    (hrun : ∀ {V v w}, W ≤ V → v.Alike V w → Tracks V (run v) (run' · w) Value.Alike) :
    Tracks W (Native.project kind run v) (fun d => Native.project kind (run' d) w) Value.Alike := by
  refine .bind_givenSequence _ (fun hV => .some (h.mono hV)) fun {V _ _ _} hV hitems => ?_
  refine .bind (.mapM (fun hV' => hrun (World.le_trans hV hV')) hitems) fun _ hall => ?_
  exact .pure fun hV' => .sequence (hall.imp fun _ _ h => h.mono hV')

/-- What becomes of an expression of the fragment by a sound judgement tracks it. -/
theorem Expr.Becomes.tracks (hhost : host.Respects F n) (hF : F.Known n)
    (hc : Caller.Unrolls F n host own c) (hJ : J.Sound U F n host own c) {e e' : Expr}
    (hfirst : e.FirstOrder) (hU : U e) (h : e.Becomes J e') (k : Nat)
    (hparams : J.TracksParams host W env env' e) :
    e.EvalTracks host (c k) (Function.callWithin host) (fun s _ => own s.stamp) W env env' e' := by
  induction hfirst generalizing e' W env env' k with
  | @node e hfn hfirst ih =>
    cases hparam : e.param? with
    | some x =>
      obtain rfl := Expr.eq_of_param? hparam
      exact fun s s' _ => hparams .here h (c k) s s'
    | none =>
      cases h with
      | put hputs => exact hJ.puts hU (.node hfn hfirst) hparam hputs hparams k
      | enter _ hr =>
        refine hr.tracks (S := fun s _ => own s.stamp) (fun _ h => h) hhost (hc.tracks k) hparam hfn
          ?_ ?_
        · rintro id ty v rfl
          exact hF (hJ.node hU)
        · exact fun d hd d' hd' => ih d hd (hJ.part hU hd) hd' k (hparams.part hd)
      | standIn hstands => exact (hJ.stands hstands).elim
      | stay hstands => exact (hJ.stands hstands).elim
  | @select id ty op source projection f hop hsource hf hbody ihs ihb =>
    cases h with
    | put hputs => exact hJ.puts hU (.select hop hsource hf hbody) rfl hputs hparams k
    | standIn hstands => exact (hJ.stands hstands).elim
    | stay hstands => exact (hJ.stands hstands).elim
    | enter _ hr =>
      obtain ⟨id', source', _, rfl, hsource', hprojection⟩ := hr.of_select
      obtain ⟨f', hf', hbecomes⟩ := hJ.fn hf hprojection
      obtain ⟨quoted, hvalue⟩ := evalIn_select id ty source hop hf
      obtain ⟨quoted', hvalue'⟩ := evalIn_select id' ty source' hop hf'
      have hUp := hJ.part hU (d := projection) (by simp [parts])
      intro s s' hs
      simp only [hvalue, hvalue']
      refine .bind
        (ihs (hJ.part hU (by simp [parts])) hsource' k (hparams.part (by simp [parts])) hs)
        fun {V v w} hV hv => ?_
      refine Native.project_tracks _ hv fun {V' item item'} hV' hitem => ?_
      have hVV' := World.le_trans hV hV'
      have hsite : own (((s.child 1).child 1).child 0).stamp := hs
      cases k with
      | zero =>
        rw [hc.zero hsite]
        exact .exhausted
      | succ k =>
        rw [hc.succ hsite]
        refine .succ ?_ fun d => Function.callWithin_succ host d _ [item']
        by_cases hlen : f.params.length = 1
        · obtain ⟨x, hx⟩ := List.length_eq_one_iff.1 hlen
          obtain ⟨x', hx', hparam⟩ := hbecomes.params_one hx
          simp only [Function.run_one hx, Function.run_one hx']
          refine ihb (hJ.body hUp hf) hbecomes.body k ?_ hs
          exact ((hparams.mono hVV').part (by simp [parts])).body hJ hUp hf hx hparam hitem
        · have hlen' := hbecomes.params.length_eq
          simp only [Function.run_of_ne hlen, Function.run_of_ne (hlen' ▸ hlen), hlen']
          exact .fail _

/-! ## Replacing a parameter -/

/-- An expression of the fragment that a parameter is not free in has the same value inside of a
projection over that parameter as outside. -/
theorem Expr.evalIn_push {e : Expr} {x : Param} (hx : F.nodes (.param x)) (he : F.nodes e)
    (hfirst : e.FirstOrder) (hfree : ¬ e.Free x) (v : Value) (d : Nat) (env : Env) (site : Site) :
    e.evalIn host (Function.callWithin host d) (Binding.ofArgs [x] [v] :: env) site =
      e.evalIn host (Function.callWithin host d) env site := by
  refine evalIn_congr he hfirst (fun y hy => ?_) d site site
  have hids : x.id ≠ y.id := fun h => hfree (F.param_eq hx (F.free he hy) h ▸ hy)
  exact .inl ⟨Env.lookup_push_of_ne hids v env, fun _ => rfl⟩

/-- What becomes of a parameter that is replaced is what stands in its place. -/
theorem Param.eq_standing_of_becomes {p y : Param} {source e' : Expr}
    (h : (Expr.param y).Becomes (.replacing [⟨.param p, source⟩]) e') :
    e' = p.standing source y := by
  rcases Expr.becomes_replacing_one.1 h with ⟨hy, rfl⟩ | ⟨hne, hr⟩
  · rw [Expr.param.inj hy, Param.standing_self]
  · cases hr
    exact (Param.standing_of_ne fun hy => hne (by rw [hy])).symm

/-- A parameter that is put in its own places is not captured. -/
theorem Expr.not_capturedIn_self (p : Param) (e : Expr) : ¬ (Expr.param p).CapturedIn p e := by
  intro h
  generalize hsource : Expr.param p = source at h
  induction h with
  | part _ _ ih => exact ih
  | body _ _ ih => exact ih
  | binds _ _ hne _ hfree =>
    subst hsource
    exact hne (free_param.1 hfree)
  | renames _ _ hq hne => exact hne (param.inj (hq.symm.trans hsource.symm))

/-- Replacing a parameter by an expression of the fragment, without capture, is sound. -/
theorem Judgement.replacing_sound {p : Param} {source : Expr} (hsource : F.nodes source)
    (hfirst : source.FirstOrder) :
    (Judgement.replacing [⟨.param p, source⟩]).Sound
      (fun e => F.nodes e ∧ ¬ source.CapturedIn p e) F n host own c where
  node hU := hU.1
  part hU hd := ⟨F.part hU.1 hd, fun h => hU.2 (.part hd h)⟩
  body hU hf := ⟨F.body (F.fn hU.1 hf), fun h => hU.2 (.body hf h)⟩
  stands h := h
  fn hf h := h.fn? (replacing_onParams (by simp)) hf
  self hxx' h := (Param.eq_standing_of_becomes h).trans hxx'.standing
  outer {e e' f x x' y} hU hf hx hxx' hy hyx h v d env site := by
    obtain rfl := Param.eq_standing_of_becomes h
    have hfF := F.fn hU.1 hf
    have standing_node {z : Param} (hz : F.nodes (.param z)) : F.nodes (p.standing source z) := by
      unfold Param.standing
      split
      · exact hsource
      · exact hz
    have hx' : F.nodes (.param x') := hxx'.standing ▸ standing_node (F.param hfF (by simp [hx]))
    refine Expr.evalIn_push hx' (standing_node (F.free (F.body hfF) hy)) ?_
      (hxx'.not_free hf hx hU.2 hy hyx) v d env site
    unfold Param.standing
    split
    · exact hfirst
    · exact .leaf rfl rfl
  puts {W env env' e e'} hU _ hparam hputs := by
    obtain ⟨rfl, -⟩ : e = .param p ∧ e' = source := by simpa [Judgement.replacing] using hputs
    cases hparam

/-- The evaluations of one expression of the fragment track each other, at whatever places, if those
of its free parameters do. -/
theorem Expr.FirstOrder.evalTracks (hhost : host.Respects F n) (hF : F.Known n)
    (hc : Caller.Unrolls F n host own c) {e : Expr} (he : F.nodes e) (hfirst : e.FirstOrder)
    {p : Param} (hp : F.nodes (.param p)) (k : Nat)
    (hparams : ∀ y, e.Free y → ∀ call s s', Tracks W ((Expr.param y).evalIn host call env s)
      (fun d => (Expr.param y).evalIn host (Function.callWithin host d) env' s') Value.Alike) :
    e.EvalTracks host (c k) (Function.callWithin host) (fun s _ => own s.stamp) W env env' e := by
  have hJ : (Judgement.replacing [⟨.param p, .param p⟩]).Sound _ F n host own c :=
    Judgement.replacing_sound hp (.leaf rfl rfl)
  refine Becomes.tracks hhost hF hc hJ hfirst ⟨he, not_capturedIn_self p e⟩ (.refl ?_ e) k ?_
  · intro e
    by_cases he : e = .param p
    · exact .inl (by simp [Judgement.replacing, he])
    · exact .inr (by simp [Judgement.replacing, he])
  · intro y e' hy hbecomes call s s'
    obtain rfl : e' = .param y := by
      rw [Param.eq_standing_of_becomes hbecomes]
      unfold Param.standing
      split
      · rw [‹y = p›]
      · rfl
    exact hparams y hy call s s'

end

end ObjectMapping
