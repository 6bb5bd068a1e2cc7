import ObjectMapping.Proofs.Advancing
import ObjectMapping.Proofs.Scoping

/-!
# Invoking a lambda

A lambda that is invoked binds its parameters to the arguments at their places
(`Env.lookup_ofArgs`) and has nothing else in scope. One that constructs an object yields it with
fields that have the values their assignments come to, each of them evaluated no earlier than the
invocation starts (`Lambda.outcome_invoke_field`).
-/

namespace ObjectMapping

open RunM

/-- What a lambda yields on arguments, with nothing else in scope. -/
def Lambda.invoke (host : Host) (f : Lambda) (args : List Value) : RunM Value := do
  (← f.prepare).call host args

section

variable {host : Host} {call : Caller} {env : Env} {t t' : Trail}

/-- Assignments leave the fields of other names alone. -/
theorem Assignment.outcome_evalList_lookup {as : List Assignment} {fs fs' : List Field}
    {name : String} {site : Site} (hname : ∀ a ∈ as, a.member.name ≠ name)
    (h : outcome (evalList host call env site fs as) t = (.ok fs', t')) :
    Field.lookup name fs' = Field.lookup name fs := by
  induction as generalizing site fs t with
  | nil =>
    obtain ⟨rfl, -⟩ := outcome_pure_ok.1 h
    rfl
  | cons a as ih =>
    obtain ⟨m, e⟩ := a
    obtain ⟨v, t₁, -, h⟩ := outcome_bind_ok.1 h
    rw [ih (fun b hb => hname b (by simp [hb])) h, Field.lookup_set,
      if_neg (hname ⟨m, e⟩ (by simp))]

/-- Where no two assignments are to fields of one name, a field has the value that its assignment
has come to. -/
theorem Assignment.outcome_evalList_field (hcall : call.Advances) {as : List Assignment}
    (hnames : (as.map (·.member.name)).Nodup) {a : Assignment} (ha : a ∈ as) {fs fs' : List Field}
    {site : Site} (h : outcome (evalList host call env site fs as) t = (.ok fs', t')) :
    ∃ u s t₁ t₂, Field.lookup a.member.name fs' = some u ∧
      outcome (a.value.evalIn host call env s) t₁ = (.ok u, t₂) ∧ t.next ≤ t₁.next := by
  induction as generalizing site fs t with
  | nil => cases ha
  | cons b as ih =>
    obtain ⟨m, e⟩ := b
    obtain ⟨hb, hnames⟩ := List.nodup_cons.1 hnames
    obtain ⟨v, t₁, hv, h⟩ := outcome_bind_ok.1 h
    rcases List.mem_cons.1 ha with rfl | ha
    · refine ⟨v, _, t, t₁, ?_, hv, Nat.le_refl _⟩
      rw [outcome_evalList_lookup (fun c hc heq => hb (List.mem_map.2 ⟨c, hc, heq⟩)) h,
        Field.lookup_set, if_pos rfl]
    · obtain ⟨u, s, t₂, t₃, hu, hrun, hle⟩ := ih hnames ha h
      exact ⟨u, s, t₂, t₃, hu, hrun,
        Nat.le_trans ((Expr.evalIn_advances hcall _ _ _).next_le hv) hle⟩

/-- A construction without constructor arguments yields an object of its type, with the fields that
its assignments come to. -/
theorem Expr.outcome_evalIn_construct {i : NodeId} {ty : Ty} {as : List Assignment} {site : Site}
    {v : Value}
    (h : outcome ((Expr.construct i ty [] as).evalIn host call env site) t = (.ok v, t')) :
    ∃ j fs t₁, v = .object j ty.text fs ∧
      outcome (Assignment.evalList host call env (site.child 1) [] as) t = (.ok fs, t₁) := by
  obtain ⟨fs, t₁, hfs, h⟩ := outcome_bind_ok.1 h
  obtain ⟨rfl, rfl⟩ := outcome_pure_ok.1 hfs
  obtain ⟨fs, t₂, hfs, h⟩ := outcome_bind_ok.1 h
  obtain ⟨j, t₃, -, h⟩ := outcome_bind_ok.1 h
  obtain ⟨rfl, -⟩ := outcome_pure_ok.1 h
  exact ⟨j, fs, t₂, rfl, hfs⟩

/-- What a lambda yields is what its body comes to, with the arguments in scope. -/
theorem Lambda.outcome_invoke {f : Lambda} {args : List Value} {v : Value}
    (h : outcome (f.invoke host args) t = (.ok v, t')) :
    ∃ k s t₁, host.depth = k + 1 ∧ args.length = f.params.length ∧ t.next ≤ t₁.next ∧
      outcome (f.body.evalIn host (Function.callWithin host k) [Binding.ofArgs f.params args] s)
        t₁ = (.ok v, t') := by
  obtain ⟨g, t₁, hg, h⟩ := outcome_bind_ok.1 h
  obtain ⟨j, t₂, hj, hg⟩ := outcome_bind_ok.1 hg
  obtain ⟨rfl, rfl⟩ := outcome_pure_ok.1 hg
  obtain ⟨rfl, rfl⟩ := outcome_fresh_ok.1 hj
  unfold Function.call at h
  cases hdepth : host.depth with
  | zero =>
    rw [hdepth] at h
    cases congrArg Prod.fst h
  | succ k =>
    rw [hdepth, Function.callWithin_succ] at h
    unfold Function.run at h
    split at h
    · simp at h
    · exact ⟨k, _, _, rfl, not_not.1 ‹_›, Nat.le_succ _, h⟩

/-- What a lambda that constructs an object without constructor arguments yields : an object whose
fields have the values that their assignments come to. -/
theorem Lambda.outcome_invoke_field {f : Lambda} {i : NodeId} {ty : Ty} {as : List Assignment}
    {args : List Value} {v : Value} (hbody : f.body = .construct i ty [] as)
    (hnames : (as.map (·.member.name)).Nodup)
    (h : outcome (f.invoke host args) t = (.ok v, t')) {a : Assignment} (ha : a ∈ as) :
    ∃ k u s t₁ t₂, host.depth = k + 1 ∧ v.field a.member.name = .ok u ∧
      outcome (a.value.evalIn host (Function.callWithin host k) [Binding.ofArgs f.params args] s)
        t₁ = (.ok u, t₂) ∧ t.next ≤ t₁.next := by
  obtain ⟨k, s, t₁, hdepth, -, hle, h⟩ := outcome_invoke h
  rw [hbody] at h
  obtain ⟨j, fs, t₂, rfl, hfs⟩ := Expr.outcome_evalIn_construct h
  obtain ⟨u, s', t₃, t₄, hu, hrun, hle'⟩ := Assignment.outcome_evalList_field
    (Function.callWithin_advances host k) hnames ha hfs
  refine ⟨k, u, s', t₃, t₄, hdepth, ?_, hrun, Nat.le_trans hle hle'⟩
  simp only [Value.field, hu]

/-! ## Runs that succeed -/

variable {I : Trail → Prop}

theorem Field.set_of_not_mem {name : String} {v : Value} {fs : List Field}
    (h : name ∉ fs.map (·.name)) : set name v fs = fs ++ [⟨name, v⟩] := by
  induction fs with
  | nil => rfl
  | cons f fs ih =>
    obtain ⟨hne, h⟩ := not_or.1 (mt List.mem_cons.2 h)
    rw [set, if_neg (Ne.symm hne), ih h, List.cons_append]

/-- Assignments to fields of different names succeed if their values do, and set the fields in
order. -/
theorem Assignment.evalList_reaches {Ss : List (Field → Prop)} {bs : List Assignment}
    (h : List.Forall₂ (fun S b => ∀ site, Reaches I (b.value.evalIn host call env site)
      fun w => S ⟨b.member.name, w⟩) Ss bs)
    {fs : List Field} (hnames : (fs.map (·.name) ++ bs.map (·.member.name)).Nodup) (site : Site) :
    Reaches I (evalList host call env site fs bs) fun gs =>
      ∃ new, gs = fs ++ new ∧ List.Forall₂ (fun S f => S f) Ss new := by
  induction h generalizing fs site with
  | nil => exact .pure ⟨[], by simp, .nil⟩
  | @cons S b Ss bs hb _ ih =>
    obtain ⟨m, e⟩ := b
    refine (hb _).bind fun w hw => ?_
    rw [Field.set_of_not_mem fun hmem =>
      (List.nodup_append.1 hnames).2.2 _ hmem _ (List.mem_cons_self ..) rfl]
    refine (ih ?_ _).imp ?_
    · simpa using hnames
    · rintro _ ⟨new, rfl, hnew⟩
      exact ⟨⟨m.name, w⟩ :: new, by simp, .cons hw hnew⟩

/-- A construction without constructor arguments succeeds if its values do. -/
theorem Expr.evalIn_construct_reaches {i : NodeId} {ty : Ty} {Ss : List (Field → Prop)}
    {bs : List Assignment} (hI : ∀ t, I t → I { t with next := t.next + 1 })
    (h : List.Forall₂ (fun S b => ∀ site, Reaches I (b.value.evalIn host call env site)
      fun w => S ⟨b.member.name, w⟩) Ss bs)
    (hnames : (bs.map (·.member.name)).Nodup) (site : Site) :
    Reaches I ((Expr.construct i ty [] bs).evalIn host call env site) fun w =>
      ∃ j fs, w = .object j ty.text fs ∧ List.Forall₂ (fun S f => S f) Ss fs := by
  refine Reaches.bind (.pure rfl) fun fs hfs => ?_
  subst hfs
  refine (Assignment.evalList_reaches h (by simpa using hnames) _).bind ?_
  rintro fs ⟨_, rfl, hfs⟩
  refine Reaches.bind (P := fun _ => True) (fun t ht => ⟨hI t ht, _, rfl, trivial⟩) fun j _ => ?_
  exact .pure ⟨j, fs, rfl, hfs⟩

/-- A lambda succeeds on as many arguments as it takes if its body does. -/
theorem Lambda.invoke_reaches {f : Lambda} {args : List Value} {k : Nat} {Q : Value → Prop}
    (hdepth : host.depth = k + 1) (hlen : args.length = f.params.length)
    (hI : ∀ t, I t → I { t with next := t.next + 1 })
    (h : ∀ site, Reaches I (f.body.evalIn host (Function.callWithin host k)
      [Binding.ofArgs f.params args] site) Q) : Reaches I (f.invoke host args) Q := by
  refine Reaches.bind (P := fun g => ∃ site, g = ⟨f, [], site, false⟩)
    (fun t ht => ⟨hI t ht, _, rfl, _, rfl⟩) ?_
  rintro _ ⟨site, rfl⟩
  unfold Function.call
  rw [hdepth, Function.callWithin_succ]
  unfold Function.run
  rw [if_neg (not_not.2 hlen)]
  exact h _

end

/-! ## Bindings of arguments -/

/-- A parameter is bound to the argument at its place. -/
theorem Env.lookup_ofArgs {ps : List Param} (hps : (ps.map (·.id)).Nodup) {p : Param} {i : Nat}
    (h : ps[i]? = some p) (vs : List Value) :
    Env.lookup p.id [Binding.ofArgs ps vs] = vs[i]? := by
  induction ps generalizing i vs with
  | nil => simp at h
  | cons q ps ih =>
    obtain ⟨hq, hps⟩ := List.nodup_cons.1 hps
    cases vs with
    | nil => simp [Env.lookup, Binding.ofArgs]
    | cons v vs =>
      cases i with
      | zero =>
        obtain rfl : q = p := by simpa using h
        simp [Env.lookup, Binding.ofArgs]
      | succ i =>
        have hp : ps[i]? = some p := by simpa using h
        have hne : q.id ≠ p.id := fun heq =>
          hq (List.mem_map.2 ⟨p, List.mem_of_getElem? hp, heq.symm⟩)
        rw [List.getElem?_cons_succ, ← ih hps hp vs]
        simp [Env.lookup, Binding.ofArgs, hne]

/-- What is no parameter is not bound. -/
theorem Env.lookup_ofArgs_of_not_mem {ps : List Param} {i : NodeId} (h : ∀ p ∈ ps, p.id ≠ i)
    (vs : List Value) : Env.lookup i [Binding.ofArgs ps vs] = none := by
  induction ps generalizing vs with
  | nil => simp [Env.lookup, Binding.ofArgs]
  | cons q ps ih =>
    cases vs with
    | nil => simp [Env.lookup, Binding.ofArgs]
    | cons v vs =>
      rw [← ih (fun p hp => h p (by simp [hp])) vs]
      simp [Env.lookup, Binding.ofArgs, h q (by simp)]

end ObjectMapping
