import ObjectMapping.Proofs.Rewriting

/-!
# Replaying a run

Where a value is used, the run that made it can be made again : the objects that the second run then
makes stand for the objects that the first run has made already. That is no loss as long as the
objects equal themselves field by field (`Value.steady`), since each is compared with the others
now. `Tracks.replay` is the statement, and `Expr.tracks_of_replacing` what it is for : a parameter
that is bound to a value is tracked by the source of the value put in its place.
-/

namespace ObjectMapping

open RunM

variable {F : Forest} {n : NodeId}

/-! ## Steady values -/

mutual

/-- Whether the objects in a value that were made from `n` on are equal to themselves field by
field. -/
def Value.steady (n : NodeId) : Value → Bool
  | .object i _ fs => (decide (i < n) || Field.allIn [] fs fs) && Field.steadyAll n fs
  | .sequence _ vs => Value.steadyAll n vs
  | .function f => Function.steady n f
  | _ => true

/-- Whether all values of a list are steady. -/
def Value.steadyAll (n : NodeId) : List Value → Bool
  | [] => true
  | v :: vs => v.steady n && Value.steadyAll n vs

/-- Whether all fields hold steady values. -/
def Field.steadyAll (n : NodeId) : List Field → Bool
  | [] => true
  | ⟨_, v⟩ :: fs => v.steady n && Field.steadyAll n fs

/-- Whether all parameters of a call are bound to steady values. -/
def Binding.steadyAll (n : NodeId) : List Binding → Bool
  | [] => true
  | ⟨_, v⟩ :: bs => v.steady n && Binding.steadyAll n bs

/-- Whether all values in scope are steady. -/
def Env.steady (n : NodeId) : List (List Binding) → Bool
  | [] => true
  | frame :: env => Binding.steadyAll n frame && Env.steady n env

/-- Whether a function is closed over steady values. -/
def Function.steady (n : NodeId) : Function → Bool
  | ⟨_, env, _, _⟩ => Env.steady n env

end

theorem Value.steadyAll_iff {vs : List Value} :
    Value.steadyAll n vs = true ↔ ∀ v ∈ vs, v.steady n = true := by
  induction vs with
  | nil => simp [Value.steadyAll]
  | cons v vs ih => simp [Value.steadyAll, ih]

theorem Field.steadyAll_iff {fs : List Field} :
    Field.steadyAll n fs = true ↔ ∀ f ∈ fs, f.value.steady n = true := by
  induction fs with
  | nil => simp [Field.steadyAll]
  | cons f fs ih =>
    obtain ⟨name, v⟩ := f
    simp [Field.steadyAll, ih]

theorem Binding.steadyAll_iff {bs : List Binding} :
    Binding.steadyAll n bs = true ↔ ∀ b ∈ bs, b.value.steady n = true := by
  induction bs with
  | nil => simp [Binding.steadyAll]
  | cons b bs ih =>
    obtain ⟨x, v⟩ := b
    simp [Binding.steadyAll, ih]

theorem Env.steady_iff {env : Env} :
    Env.steady n env = true ↔ ∀ frame ∈ env, ∀ b ∈ frame, b.value.steady n = true := by
  induction env with
  | nil => simp [Env.steady]
  | cons frame env ih => simp [Env.steady, ih, Binding.steadyAll_iff]

/-! ## Worlds of a replay -/

namespace World

/-- Whether an object was made before, or is equal to itself field by field. -/
def keeps (V : World F n) (i : NodeId) : Bool :=
  decide (i < n) || (V.heap i).any fun c => Field.allIn [] c.2 c.2

theorem keeps_iff {V : World F n} {i : NodeId} : V.keeps i = true ↔
    i < n ∨ ∃ ty fs, V.heap i = some (ty, fs) ∧ Field.allIn [] fs fs = true := by
  simp [keeps, Option.any_eq_true]

/-- The world in which nothing of the second run has been made yet. -/
def forget (V : World F n) : World F n where
  heap := V.heap
  origin := (start F n).origin
  shared := (start F n).shared
  own := (start F n).own
  steady h h' := by
    rw [start_origin] at h h'
    split at h <;> split at h' <;> simp_all

/-- What the objects of the second run stand for when those from `m` on stand for what they do in
another world. -/
def graftOrigin (V U : World F n) (m j : NodeId) : Option NodeId :=
  if j < m then V.origin j else (U.origin j).filter V.keeps

theorem graftOrigin_of_lt {V U : World F n} {m j : NodeId} (h : j < m) :
    V.graftOrigin U m j = V.origin j :=
  if_pos h

theorem graftOrigin_of_le {V U : World F n} {m j i : NodeId} (h : m ≤ j) :
    V.graftOrigin U m j = some i ↔ U.origin j = some i ∧ V.keeps i = true := by
  rw [graftOrigin, if_neg (Nat.not_lt.2 h), Option.filter_eq_some_iff]

/-- The world in which the objects that the second run has made from `m` on stand for what they do
in another world. -/
def graft (V U : World F n) (m : NodeId) (hm : n ≤ m) : World F n where
  heap := V.heap
  origin := V.graftOrigin U m
  shared h := (graftOrigin_of_lt (Nat.lt_of_lt_of_le h hm)).trans (V.shared h)
  own {j i} h hn := by
    rcases Nat.lt_or_ge j m with hj | hj
    · exact V.own ((graftOrigin_of_lt hj).symm.trans h) hn
    · exact U.own ((graftOrigin_of_le hj).1 h).1 hn
  steady {j k i} hj hk := by
    have own {j : NodeId} (hi : i < n) (h : V.graftOrigin U m j = some i) : j = i := by
      rcases Nat.lt_or_ge j m with hj | hj
      · exact V.own ((graftOrigin_of_lt hj).symm.trans h) (.inr hi)
      · exact U.own ((graftOrigin_of_le hj).1 h).1 (.inr hi)
    have of_keeps : V.keeps i = true →
        j = k ∨ ∃ ty fs, V.heap i = some (ty, fs) ∧ Field.allIn [] fs fs = true :=
      fun h => (keeps_iff.1 h).imp (fun hi => (own hi hj).trans (own hi hk).symm) fun h => h
    rcases Nat.lt_or_ge j m with hjm | hjm
    · rcases Nat.lt_or_ge k m with hkm | hkm
      · rw [graftOrigin_of_lt hjm] at hj
        rw [graftOrigin_of_lt hkm] at hk
        exact V.steady hj hk
      · exact of_keeps ((graftOrigin_of_le hkm).1 hk).2
    · exact of_keeps ((graftOrigin_of_le hjm).1 hj).2

variable {U V W : World F n} {t t' t₁' : Trail}

theorem forget_fits (h : V.Fits t t') (h' : n ≤ t₁'.next) : V.forget.Fits t t₁' :=
  ⟨h.fst_le, h', h.heap, (start_fits (F := F) h.fst_le h').origin⟩

/-- A replay adds what it makes to the world. -/
theorem grows_graft (hV : V.Fits t t') (hle : t'.next ≤ t₁'.next) :
    V.Grows (V.graft U t'.next hV.snd_le) t' t₁' where
  le := ⟨fun hj => (graftOrigin_of_lt (hV.origin hj).2).trans hj, fun hi => hi⟩
  next_le := hle
  origin hj h := (graftOrigin_of_lt hj).symm.trans h

theorem graft_fits (hV : V.Fits t t') (hle : t'.next ≤ t₁'.next)
    (hU : ∀ {j i}, U.origin j = some i → j < t₁'.next) :
    (V.graft U t'.next hV.snd_le).Fits t t₁' := by
  refine ⟨hV.fst_le, Nat.le_trans hV.snd_le hle, hV.heap, fun {j i} h => ?_⟩
  rcases Nat.lt_or_ge j t'.next with hj | hj
  · have horigin := hV.origin ((graftOrigin_of_lt hj).symm.trans h)
    exact ⟨horigin.1, Nat.lt_of_lt_of_le hj hle⟩
  · obtain ⟨horigin, hkeeps⟩ := (graftOrigin_of_le hj).1 h
    refine ⟨?_, hU horigin⟩
    rcases keeps_iff.1 hkeeps with hi | ⟨ty, fs, hheap, -⟩
    · exact Nat.lt_of_lt_of_le hi hV.fst_le
    · exact hV.heap hheap

end World

/-- A steady value, whose objects are in the heap of a world, is alike in every world with that heap
in which its objects are stood for. -/
theorem Value.Alike.transfer {U₀ U V V' : World F n} (hheap : V'.heap = V.heap)
    (hU₀ : ∀ {i c}, U₀.heap i = some c → V.heap i = some c)
    (horigin : ∀ {j i}, U.origin j = some i → V.keeps i = true → V'.origin j = some i)
    {v w₀ w : Value} (h₀ : v.Alike U₀ w₀) (h : v.Alike U w) (hsteady : v.steady n = true) :
    v.Alike V' w := by
  induction v using Value.byParts generalizing w₀ w with
  | object i ty fs ih =>
    cases h₀ with | object _ hheap₀ hfs₀ =>
    cases h with | object ho _ hfs =>
    simp only [steady, Bool.and_eq_true, Bool.or_eq_true, decide_eq_true_iff] at hsteady
    have hcontent (hi : n ≤ i) : V.heap i = some (ty, fs) := hU₀ (hheap₀ hi)
    refine .object (horigin ho (World.keeps_iff.2 ?_)) (fun hi => hheap ▸ hcontent hi) ?_
    · rcases Nat.lt_or_ge i n with hi | hi
      · exact .inl hi
      · exact .inr ⟨ty, fs, hcontent hi, hsteady.1.resolve_left (Nat.not_lt.2 hi)⟩
    · refine forall₂_imp_of_mem hfs fun f hf g hfg => ?_
      obtain ⟨g₀, -, hfg₀⟩ := forall₂_mem_left hfs₀ hf
      cases hfg₀ with | mk h₀ =>
      cases hfg with | mk h => exact .mk (ih _ hf h₀ h (Field.steadyAll_iff.1 hsteady.2 _ hf))
  | sequence kind vs ih =>
    cases h₀ with | sequence hvs₀ =>
    cases h with | sequence hvs =>
    refine .sequence (forall₂_imp_of_mem hvs fun v hv w h => ?_)
    obtain ⟨w₀, -, h₀⟩ := forall₂_mem_left hvs₀ hv
    exact ih v hv h₀ h (Value.steadyAll_iff.1 hsteady v hv)
  | function f ih =>
    cases h₀ with | function _ henv₀ =>
    cases h with | function hf henv =>
    refine .function hf (forall₂_imp_of_mem henv fun frame hframe frame' h => ?_)
    obtain ⟨frame₀, -, hframe₀⟩ := forall₂_mem_left henv₀ hframe
    refine forall₂_imp_of_mem h fun b hb b' h => ?_
    obtain ⟨b₀, -, hb₀⟩ := forall₂_mem_left hframe₀ hb
    cases hb₀ with | mk h₀ =>
    cases h with | mk h =>
      exact .mk (ih _ hframe _ hb h₀ h (Env.steady_iff.1 hsteady _ hframe _ hb))
  | mapper m => cases h with | mapper h => exact .mapper h
  | _ =>
    cases h
    constructor

section

variable {U₀ V W : World F n} {t t' t₁ : Trail} {x : RunM Value} {y : Nat → RunM Value}
  {v w₀ : Value}

/-- The value of a run is tracked by what tracks the run, made again later, if it is steady. -/
theorem Tracks.replay (hxy : Tracks W x y Value.Alike) (hfits : W.Fits t t')
    (hx : outcome x t = (.ok v, t₁)) (h₀ : v.Alike U₀ w₀)
    (hU₀ : ∀ {i c}, U₀.heap i = some c → V.heap i = some c) (hWV : W ≤ V)
    (hsteady : v.steady n = true) : Tracks V (Pure.pure v) y Value.Alike where
  ok {X s s' _ _} hVX hX hpure := by
    obtain ⟨rfl, rfl⟩ := outcome_pure_ok.1 hpure
    have hW : W.Fits t s' := ⟨hfits.fst_le, hX.snd_le, hfits.heap, fun ho =>
      ⟨(hfits.origin ho).1, (hX.origin ((World.le_trans hWV hVX).1 ho)).2⟩⟩
    obtain ⟨w, t₁', U, hy, hgrows, hU, hw⟩ := hxy.ok W.le_refl hW hx
    refine ⟨w, t₁', X.graft U s'.next hX.snd_le, hy, World.grows_graft hX hgrows.next_le,
      World.graft_fits hX hgrows.next_le fun ho => (hU.origin ho).2, ?_⟩
    have hheap : (X.graft U s'.next hX.snd_le).heap = X.heap := rfl
    refine Value.Alike.transfer hheap (fun hi => hVX.2 (hU₀ hi)) (fun {j i} ho hkeeps => ?_) h₀ hw
      hsteady
    -- what the objects from before the replay stand for is known from before
    rcases Nat.lt_or_ge j s'.next with hj | hj
    · exact (World.graftOrigin_of_lt hj).trans ((World.le_trans hWV hVX).1 (hgrows.origin hj ho))
    · exact (World.graftOrigin_of_le hj).2 ⟨ho, hkeeps⟩
  failed _ _ hpure := nomatch congrArg Prod.fst hpure

/-- What tracks a run makes its value again later on, where that is steady. -/
theorem Tracks.replayable (hxy : Tracks W x y Value.Alike) :
    Tracks W x y fun V v w => v.Alike V w ∧ (v.steady n = true → ∀ {y' : Nat → RunM Value},
      Tracks W x y' Value.Alike → Tracks V (Pure.pure v) y' Value.Alike) where
  ok hV hfits hx := by
    obtain ⟨b, t₁', U, hy, hgrows, hU, hab⟩ := hxy.ok hV hfits hx
    refine ⟨b, t₁', U, hy, hgrows, hU, hab, fun hsteady _ hxy' => ?_⟩
    exact (hxy'.mono hV).replay hfits hx hab (fun hi => hi) hgrows.le hsteady
  failed := hxy.failed

end

/-- An expression of the fragment over a parameter that is bound to a value is tracked by what
becomes of it when an expression that tracks the value is put in the place of the parameter. -/
theorem Expr.tracks_of_replacing {host : Host} (hhost : host.Respects F n) (hF : F.Known n)
    {W : World F n} {e e' source : Expr} {p : Param} (he : F.nodes e) (hfirst : e.FirstOrder)
    (hsource : F.nodes source) (hsfirst : source.FirstOrder) (hcap : ¬ source.CapturedIn p e)
    (hbecomes : e.Becomes (.replacing [⟨.param p, source⟩]) e') {v : Value} {env env' : Env}
    (hv : ∀ s', Tracks W (pure v)
      (fun d => source.evalIn host (Function.callWithin host d) env' s') Value.Alike)
    (henv : ∀ y, e.Free y → y ≠ p → Option.Rel (Value.Alike W)
      (Env.lookup y.id (Binding.ofArgs [p] [v] :: env)) (env'.lookup y.id)) (k : Nat) :
    e.EvalTracks host (Function.callWithin host k) (Function.callWithin host) (fun _ _ => True) W
      (Binding.ofArgs [p] [v] :: env) env' e' := by
  have hc := Function.callWithin_unrolls hhost hF fun _ => True
  refine Becomes.tracks hhost hF hc (Judgement.replacing_sound hsource hsfirst) hfirst ⟨he, hcap⟩
    hbecomes k ?_
  intro y d hy hd call s s'
  obtain rfl := Param.eq_standing_of_becomes hd
  by_cases hyp : y = p
  · subst hyp
    simp only [Param.standing_self, evalIn, Env.lookup_push_self]
    exact hv s'
  · rw [Param.standing_of_ne hyp]
    exact evalIn_param_tracks (henv y hy hyp) s s'

end ObjectMapping
