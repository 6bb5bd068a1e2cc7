import ObjectMapping.Proofs.Replaying

/-!
# Inlined lambdas

A lambda over a parameter computes the same when a source is inlined in place of the parameter, if
no binder of the body captures. The source is then evaluated again wherever the parameter stands,
instead of once, so that objects that it makes are made several times ; `Lambda.evalIn_inline` says
that this is not to be seen. `Lambda.evalIn_inline_captured` is a lambda with a binder that
captures.
-/

namespace ObjectMapping

open RunM

namespace Lambda

/-- What a lambda over a source comes to, with its parameter bound to the value of the source, is
what the inlined expression comes to, from some depth on and at whatever place. -/
theorem evalIn_inline {F : Forest} {host : Host} {f : Lambda} {p : Param} {source e : Expr}
    {env : Env} {t t' t₀ t₁ t₂ t₃ : Trail} {k l : Nat} {s₀ s₁ s₂ : Site} {v : Value}
    {r : Except Fault Value}
    (hf : F.fns f) (hs : F.nodes source) (hF : F.Below t.next) (hp : f.params = [p])
    (hfirst : f.body.FirstOrder) (hsfirst : source.FirstOrder) (hcap : ¬ source.CapturedIn p f.body)
    (hinline : outcome (f.inline source) t = (.ok e, t'))
    (hhost : host.Respects F t₀.next) (hknown : F.Known t₀.next)
    (henv : env.Alike (World.start F t₀.next) env)
    (hsource : outcome (source.evalIn host (Function.callWithin host k) env s₀) t₀ = (.ok v, t₁))
    (hsteady : v.steady t₀.next = true)
    (hbody : outcome (f.body.evalIn host (Function.callWithin host l)
      (Binding.ofArgs [p] [v] :: env) s₁) t₁ = (r, t₃))
    (hr : r ≠ .error .exhausted) (hlater : t₀.next ≤ t₂.next) :
    SettlesLike F t₀.next (fun d => e.evalIn host (Function.callWithin host d) env s₂) t₂ r := by
  obtain ⟨q, hq, -, hbecomes, -⟩ := inline_becomes hf hs hF hinline
  obtain rfl : p = q := by simpa [hp] using hq
  have hpF : F.nodes (.param p) := F.param hf (by simp [hp])
  have hc := Function.callWithin_unrolls hhost hknown fun _ => True
  have htracks (s : Site) : Tracks (World.start F t₀.next)
      (source.evalIn host (Function.callWithin host k) env s₀)
      (fun d => source.evalIn host (Function.callWithin host d) env s) Value.Alike :=
    hsfirst.evalTracks hhost hknown hc hs hpF k
      (fun y _ _ s s' => Expr.evalIn_param_tracks (henv.lookup y.id) s s') trivial
  have hstart : (World.start F t₀.next).Fits t₀ t₂ := World.start_fits (Nat.le_refl _) hlater
  -- the value is known to be made of the objects in the heap of a world
  obtain ⟨w₀, _, U₀, -, -, hU₀, h₀⟩ := (htracks s₀).ok (World.le_refl _) hstart hsource
  have hreplay (s : Site) : Tracks U₀.forget (pure v)
      (fun d => source.evalIn host (Function.callWithin host d) env s) Value.Alike :=
    (htracks s).replay hstart hsource h₀ (fun hi => hi) (World.start_le _) hsteady
  have hother (y : Param) (hy : f.body.Free y) (hne : y ≠ p) :
      Option.Rel (Value.Alike U₀.forget) (Env.lookup y.id (Binding.ofArgs [p] [v] :: env))
        (env.lookup y.id) := by
    have hids : p.id ≠ y.id := fun h => hne (F.param_eq hpF (F.free (F.body hf) hy) h).symm
    rw [Env.lookup_push_of_ne hids]
    exact (henv.mono (World.start_le _)).lookup y.id
  refine (Expr.tracks_of_replacing hhost hknown (F.body hf) hfirst hs hsfirst hcap hbecomes hreplay
    hother l trivial).settlesLike (World.forget_fits hU₀ hlater) hbody hr

/-- The projection of a body takes the parameter for each item, and the source makes an object of
the parameter whose place it takes and of another one. -/
theorem evalIn_inline_projected :
    let p : Param := ⟨0, "p", .object "A"⟩
    let q : Param := ⟨1, "q", .int⟩
    let r : Param := ⟨2, "r", .int⟩
    let n : Member := ⟨"A", "n", .int⟩
    let items : Expr := .constant 3 (.sequence .list .int) (.sequence .list [.int 10, .int 20])
    let g : Lambda := ⟨6, [q], .binary 5 .int .add (.member 4 (.param p) n) (.param q)⟩
    let f : Lambda := ⟨9, [p], .call 8 (.sequence .enumerable .int) .enumerableSelect none
      [items, .lambda 7 g]⟩
    let source : Expr := .construct 12 (.object "A") []
      [⟨n, .binary 11 .int .add (.member 10 (.param p) n) (.param r)⟩]
    let env : Env := [[⟨0, .object 13 "A" [⟨"n", .int 1⟩]⟩, ⟨2, .int 2⟩]]
    ∃ F e, outcome (f.inline source) { next := 14 } = (.ok e, { next := 26 }) ∧
      SettlesLike F 26 (fun d => e.evalIn (.bare 0) (Function.callWithin (.bare 0) d) env
        ⟨.run 0, []⟩) { next := 26 } (.ok (.sequence .enumerable [.int 13, .int 23])) := by
  intro p q r n items g f source env
  let sum : Expr := .binary 11 .int .add (.member 10 (.param p) n) (.param r)
  let F : Forest := .ofLists
    [.param p, .param q, .param r, items, .member 4 (.param p) n, g.body, .lambda 7 g, f.body,
      .member 10 (.param p) n, sum, source] [g, f] (by decide) (by decide)
    (by simp [Expr.parts, f, g, items, source, sum]) (by simp [Expr.fn?, f, g, items, source, sum])
    (by simp [f, g]) (by simp)
  obtain ⟨e, he⟩ : ∃ e, (outcome (f.inline source) { next := 14 }).1 = .ok e :=
    exists_ok_of_isOk (by decide +kernel)
  have hrun : outcome (f.inline source) { next := 14 } = (.ok e, { next := 26 }) := Prod.ext he rfl
  let v : Value := .object 26 "A" [⟨"n", .int 3⟩]
  have hsource : outcome (source.evalIn (.bare 0) (Function.callWithin (.bare 0) 0) env
      ⟨.run 0, []⟩) { next := 26 } = (.ok v, { next := 27 }) := Prod.ext rfl rfl
  have hbody : outcome (f.body.evalIn (.bare 0) (Function.callWithin (.bare 0) 1)
      (Binding.ofArgs [p] [v] :: env) ⟨.run 0, []⟩) { next := 27 } =
    (.ok (.sequence .enumerable [.int 13, .int 23]), { next := 27 }) := Prod.ext rfl rfl
  have hparam (y : Param) : (Expr.param y).FirstOrder := .leaf rfl rfl
  have hadd (i j : NodeId) (y : Param) :
      (Expr.binary i .int .add (.member j (.param p) n) (.param y)).FirstOrder :=
    .node rfl (by simpa [Expr.parts, hparam] using .node rfl (by simp [Expr.parts, hparam]))
  have hcap : ¬ source.CapturedIn p f.body := by
    intro h
    obtain ⟨d, f', hd, hf', x, hx, h⟩ := F.fn_of_capturedIn (by simp [F, Forest.ofLists]) h
    have hfns : ∀ d, F.nodes d → ∀ f', d.fn? = some f' → f' = g := by
      simp [F, Forest.ofLists, Expr.fn?, items, f, g, source, sum, eq_comm]
    obtain rfl : x = q := by simpa [hfns d hd f' hf', g] using hx
    rcases h with h | h
    · exact absurd h.occursIn (by decide)
    · exact absurd h (by decide)
  have hknown : F.Known 26 := by
    intro id ty v h
    obtain ⟨-, -, rfl⟩ : id = 3 ∧ ty = _ ∧ v = .sequence .list [.int 10, .int 20] := by
      simpa [F, Forest.ofLists, items, f, g, source, sum] using h
    exact .sequence (.cons (.int 10) (.cons (.int 20) .nil))
  have hobject : (Value.object 13 "A" [⟨"n", .int 1⟩]).Known F 26 :=
    .object rfl (fun h => absurd h (by decide)) (.cons (.mk (.int 1)) .nil)
  have henv : env.Alike (World.start F 26) env :=
    .cons (.cons (.mk hobject) (.cons (.mk (.int 2)) .nil)) .nil
  exact ⟨F, e, hrun, evalIn_inline (List.mem_cons_of_mem _ (List.mem_singleton_self f))
    (by simp [Forest.ofLists]) (Forest.below_ofLists (by decide) (by decide)) rfl
    (.select (.inl rfl) (.leaf rfl rfl) rfl (hadd ..))
    (.node rfl (by simpa [source, Expr.parts] using hadd ..)) hcap hrun (Host.bare_respects 0)
    hknown henv hsource rfl hbody (by simp) (Nat.le_refl _)⟩

/-- A binder of the body that captures : the source is the parameter of the projection, which adds
it to itself. -/
theorem evalIn_inline_captured :
    let p : Param := ⟨0, "p", .int⟩
    let q : Param := ⟨1, "q", .int⟩
    let items : Expr := .constant 2 (.sequence .list .int) (.sequence .list [.int 10])
    let g : Lambda := ⟨4, [q], .binary 3 .int .add (.param p) (.param q)⟩
    let f : Lambda := ⟨7, [p], .call 6 (.sequence .enumerable .int) .enumerableSelect none
      [items, .lambda 5 g]⟩
    let env : Env := [[⟨1, .int 1⟩]]
    ∃ e t, outcome (f.inline (.param q)) { next := 8 } = (.ok e, t) ∧
      (outcome ((Expr.param q).evalIn (.bare 0) (Function.callWithin (.bare 0) 0) env ⟨.run 0, []⟩)
        t).1 = .ok (.int 1) ∧
      (outcome (f.body.evalIn (.bare 0) (Function.callWithin (.bare 0) 1)
        (Binding.ofArgs [p] [.int 1] :: env) ⟨.run 0, []⟩) t).1 =
          .ok (.sequence .enumerable [.int 11]) ∧
      (outcome (e.evalIn (.bare 0) (Function.callWithin (.bare 0) 1) env ⟨.run 0, []⟩) t).1 =
        .ok (.sequence .enumerable [.int 20]) :=
  ⟨_, _, rfl, rfl, rfl, rfl⟩

/-- An object that differs from itself field by field : it equals itself, but not another one made
in the same way. -/
theorem evalIn_inline_unsteady :
    let p : Param := ⟨0, "p", .object "A"⟩
    let f : Lambda := ⟨2, [p], .binary 1 .bool .equal (.param p) (.param p)⟩
    let nan : Value := .float (.ofBits 0x7ff8000000000000)
    let source : Expr :=
      .construct 4 (.object "A") [] [⟨⟨"A", "x", .float⟩, .constant 3 .float nan⟩]
    ∃ e t v t₁, outcome (f.inline source) { next := 5 } = (.ok e, t) ∧
      outcome (source.evalIn (.bare 0) (Function.callWithin (.bare 0) 0) [] ⟨.run 0, []⟩) t =
        (.ok v, t₁) ∧
      (outcome (f.body.evalIn (.bare 0) (Function.callWithin (.bare 0) 0) [Binding.ofArgs [p] [v]]
        ⟨.run 0, []⟩) t₁).1 = .ok (.bool true) ∧
      (outcome (e.evalIn (.bare 0) (Function.callWithin (.bare 0) 0) [] ⟨.run 0, []⟩) t).1 =
        .ok (.bool false) :=
  ⟨_, _, _, _, rfl, rfl, rfl, rfl⟩

end Lambda

end ObjectMapping
