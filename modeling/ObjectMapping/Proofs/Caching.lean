import Mathlib.Data.List.Dedup
import ObjectMapping.Proofs.Expanding
import ObjectMapping.Proofs.PairedSites
import ObjectMapping.Stock.Transformers

/-!
# What the cache of an expander changes

Nothing that is to be seen, if what comes from outside gives the same answers whenever it is asked.
A lookup gives what the markers of the operation offer, whether it is found in the cache or made
(`ExpanderDesign.LooksUp.offers`), and it takes nothing from the trail but an identity for the
instance. So two passes over one tree go in step whatever their caches hold
(`ExpanderDesign.visitor_inStep`), and come to the same up to generated names. An instance that
keeps something under its identity gives the cache away (`SiteExpansion.counting`).

What the cache holds is told from the lookups, those inside passes included : `Lookup` is one of
them with what it came to, and `ExpanderDesign.recorder` is the pass that writes them down, which
otherwise does what the pass does (`ExpanderDesign.recorder_inStep`). `Ledger` is the invariant of
a cache and of the lookups that led to it.
-/

namespace ObjectMapping

open RunM

/-! ## What markers offer -/

/-- What was found, whichever instance it is. -/
def SiteTransformer.found (r : Except Fault (Option SiteTransformer)) :
    Except Fault (Option SiteExpansion) :=
  r.map (·.map (·.expand))

namespace ExpanderDesign

/-- What an operation is expanded by : by nothing if it has no marker, by what its one marker names
otherwise, if that can be made. -/
def offers (design : ExpanderDesign) (op : Operation) : Except Fault (Option SiteExpansion) :=
  match op.markers with
  | [] => .ok none
  | [marker] =>
    match marker.transformer? design.custom design.settings with
    | .ok expand => .ok (some expand)
    | .error cause => .error (.failed (.transformerNotMade marker.name op.signature cause))
  | _ => .error (.failed (.multipleMarkers op.signature))

variable {design : ExpanderDesign} {ops : Operation → Prop} {op : Operation}
  {transformer : Option SiteTransformer} {s s' : Trail × TransformerCache}
  {r : Except Fault (Option SiteTransformer)}

theorem Makes.offers_eq (h : design.Makes op transformer) :
    design.offers op = .ok (transformer.map (·.expand)) := by
  cases h with
  | none hop => simp [offers, hop]
  | some hop hexpand => simp [offers, hop, hexpand]

/-- An expansion that is offered is that of a marker. -/
theorem exists_marker {expand : SiteExpansion} (h : design.offers op = .ok (some expand)) :
    ∃ marker : Marker, marker.transformer? design.custom design.settings = .ok expand := by
  unfold offers at h
  split at h
  · cases h
  · rename_i marker _
    split at h
    · rename_i made hmade
      obtain rfl := Option.some.inj (Except.ok.inj h)
      exact ⟨marker, hmade⟩
    · cases h
  · cases h

/-! ## Lookups -/

/-- What a lookup comes to, and what it leaves : what the cache holds, or a new transformer, which
is kept, or a fault, of which nothing is kept. -/
inductive LooksUp (design : ExpanderDesign) (op : Operation) (s : Trail × TransformerCache) :
    Except Fault (Option SiteTransformer) → Trail × TransformerCache → Prop
  | known {transformer : Option SiteTransformer} :
    s.2.lookup op.signature = some transformer → LooksUp design op s (.ok transformer) s
  | made {transformer : Option SiteTransformer} {t : Trail} :
    s.2.lookup op.signature = none → design.Makes op transformer → s.1.next ≤ t.next →
    t.log = s.1.log →
    LooksUp design op s (.ok transformer) (t, s.2 ++ [(op.signature, transformer)])
  | failed {fault : Fault} :
    s.2.lookup op.signature = none → design.offers op = .error fault →
    LooksUp design op s (.error fault) s

theorem makeTransformer_offers {t t' : Trail}
    (h : outcome (design.makeTransformer op) t = (r, t')) :
    SiteTransformer.found r = design.offers op ∧ t.next ≤ t'.next ∧ t'.log = t.log ∧
      ∀ fault, r = .error fault → t' = t := by
  unfold makeTransformer at h
  unfold offers
  generalize op.markers = markers at h ⊢
  match markers with
  | [] =>
    obtain ⟨rfl, rfl⟩ := Prod.mk.inj h
    exact ⟨rfl, Nat.le_refl _, rfl, nofun⟩
  | [marker] =>
    dsimp only at h ⊢
    generalize marker.transformer? design.custom design.settings = made at h ⊢
    cases made with
    | ok expand =>
      obtain ⟨rfl, rfl⟩ := Prod.mk.inj h
      exact ⟨rfl, Nat.le_succ _, rfl, nofun⟩
    | error cause =>
      obtain ⟨rfl, rfl⟩ := Prod.mk.inj h
      exact ⟨rfl, Nat.le_refl _, rfl, fun _ _ => rfl⟩
  | _ :: _ :: _ =>
    obtain ⟨rfl, rfl⟩ := Prod.mk.inj h
    exact ⟨rfl, Nat.le_refl _, rfl, fun _ _ => rfl⟩

/-- A run inside a pass goes on from the trail. -/
theorem outcome_lift {α : Type} (run : RunM α) (s : Trail × TransformerCache) :
    outcome (liftM run : PassM α) s = ((outcome run s.1).1, ((outcome run s.1).2, s.2)) :=
  rfl

/-- A lookup finds what the cache holds, and makes and keeps what it does not. -/
theorem looksUp (h : outcome (design.transformerOf op) s = (r, s')) : design.LooksUp op s r s' := by
  have hknown : outcome (PassM.known op.signature) s = (.ok (s.2.lookup op.signature), s) := rfl
  unfold transformerOf at h
  rw [outcome_bind_of_ok hknown] at h
  cases hlookup : s.2.lookup op.signature with
  | some known =>
    rw [hlookup] at h
    obtain ⟨rfl, rfl⟩ := Prod.mk.inj h
    exact .known hlookup
  | none =>
    rw [hlookup] at h
    rcases hmake : outcome (design.makeTransformer op) s.1 with ⟨fault | transformer, t⟩
    · have hlift := outcome_lift (design.makeTransformer op) s
      rw [hmake] at hlift
      obtain ⟨rfl, rfl⟩ := Prod.mk.inj ((outcome_bind_of_error hlift).symm.trans h)
      obtain ⟨hoffers, -, -, hstays⟩ := makeTransformer_offers hmake
      obtain rfl := hstays fault rfl
      exact .failed hlookup hoffers.symm
    · have hlift := outcome_lift (design.makeTransformer op) s
      rw [hmake] at hlift
      have hkeep : outcome (PassM.keep op.signature transformer) (t, s.2) =
          (.ok (), (t, s.2 ++ [(op.signature, transformer)])) := rfl
      have hrest := (outcome_bind_of_ok hlift).symm.trans h
      rw [outcome_bind_of_ok hkeep] at hrest
      obtain ⟨rfl, rfl⟩ := Prod.mk.inj hrest
      obtain ⟨-, hnext, hlog, -⟩ := makeTransformer_offers hmake
      have hmakes : design.Makes op transformer :=
        (makeTransformer_upholds (.above s.1.next) s.1 (Nat.le_refl _)).2 _
          (congrArg Prod.fst hmake)
      exact .made hlookup hmakes hnext hlog

/-- A lookup gives what the markers offer, and writes nothing to the log. -/
theorem LooksUp.offers (h : design.LooksUp op s r s') (hop : ops op)
    (hcache : design.Caches ops s.2) :
    SiteTransformer.found r = design.offers op ∧ s.1.next ≤ s'.1.next ∧ s'.1.log = s.1.log := by
  cases h with
  | known hlookup => exact ⟨(hcache hop hlookup).offers_eq.symm, Nat.le_refl _, rfl⟩
  | made _ hmakes hnext hlog => exact ⟨hmakes.offers_eq.symm, hnext, hlog⟩
  | failed _ hoffers => exact ⟨hoffers.symm, Nat.le_refl _, rfl⟩

section

variable (hkeys : ∀ {op op' : Operation}, ops op → ops op' → op.signature = op'.signature →
  op.markers = op'.markers)

include hkeys

/-- After a lookup the cache is as it should be. -/
theorem LooksUp.caches (h : design.LooksUp op s r s') (hop : ops op)
    (hcache : design.Caches ops s.2) : design.Caches ops s'.2 := by
  cases h with
  | known => exact hcache
  | @made transformer t hlookup hmakes =>
    exact ((keep_yields (I := .above 0) hkeys hop hmakes) (t, s.2) ⟨Nat.zero_le _, hcache⟩).1.2
  | failed => exact hcache

end

end ExpanderDesign

/-! ## Passes side by side -/

/-- Trails that are abreast, and caches that hold what was made for the operations in use. -/
def Coupling.caches (design : ExpanderDesign) (ops : Operation → Prop) (log log' : List String) :
    Coupling (Trail × TransformerCache) (Trail × TransformerCache) where
  trails := Abreast log log'
  states ρ s s' := Abreast log log' ρ s.1 s'.1 ∧ design.Caches ops s.2 ∧ design.Caches ops s'.2
  fresh := Abreast.fresh
  lift h := by
    refine ⟨fun hτ ⟨ht, hc, hc'⟩ => ?_⟩
    obtain ⟨υ, hυ, ht', hended⟩ := h.ended hτ ht
    exact ⟨υ, hυ, ⟨ht', hc, hc'⟩, hended⟩

/-- A node of both trees, in which operations in use are called. -/
def Expr.InBoth (F : Forest) (ops : Operation → Prop) (e e' : Expr) : Prop :=
  e = e' ∧ F.nodes e ∧ e.All (Expr.CallsIn ops)

theorem Expr.inherits_inBoth {F : Forest} {ops : Operation → Prop} :
    Expr.Inherits (Expr.InBoth F ops) where
  parts h _ := by
    obtain ⟨rfl, he, hall⟩ := h
    exact List.forall₂_same.2 fun d hd => ⟨rfl, F.part he hd, hall.part hd⟩
  fn h _ hf hg := by
    obtain ⟨rfl, he, hall⟩ := h
    obtain rfl := Option.some.inj (hf.symm.trans hg)
    have hfn := F.fn he hf
    exact ⟨⟨rfl, F.body hfn, (hall.fn hf).body⟩,
      List.forall₂_same.2 fun p hp => ⟨rfl, F.param hfn hp, (hall.fn hf).param hp⟩⟩

namespace ExpanderDesign

section

variable {design : ExpanderDesign} {ops : Operation → Prop} {log log' : List String} {ρ : Pairing}
  {F : Forest} {n : NodeId} {host : Host} {cx : BuildContext}
  (hkeys : ∀ {op op' : Operation}, ops op → ops op' → op.signature = op'.signature →
    op.markers = op'.markers)

include hkeys

/-- Lookups in different caches go in step. -/
theorem transformerOf_inStep {op : Operation} (hop : ops op) :
    InStep (Coupling.caches design ops log log').states ρ (design.transformerOf op)
      (design.transformerOf op) fun _ a b =>
        design.offers op = .ok (a.map (·.expand)) ∧ design.offers op = .ok (b.map (·.expand)) := by
  refine ⟨fun {τ s s'} _ ⟨ht, hc, hc'⟩ => ?_⟩
  rcases h : outcome (design.transformerOf op) s with ⟨r, s₁⟩
  rcases h' : outcome (design.transformerOf op) s' with ⟨r', s₁'⟩
  obtain ⟨hr, hnext, hlog⟩ := (looksUp h).offers hop hc
  obtain ⟨hr', hnext', hlog'⟩ := (looksUp h').offers hop hc'
  refine ⟨τ, τ.le_refl, ⟨⟨fun hij => ?_, hlog ▸ hlog' ▸ ht.log⟩,
    (looksUp h).caches hkeys hop hc, (looksUp h').caches hkeys hop hc'⟩, ?_⟩
  · exact ⟨Nat.lt_of_lt_of_le (ht.next hij).1 hnext, Nat.lt_of_lt_of_le (ht.next hij).2 hnext'⟩
  · cases r with
    | ok a =>
      cases r' with
      | ok b => exact .ok ⟨hr.symm, hr'.symm⟩
      | error => cases hr.trans hr'.symm
    | error e =>
      cases r' with
      | ok => cases hr.trans hr'.symm
      | error e' =>
        obtain rfl : e = e' := Except.error.inj (hr.trans hr'.symm)
        exact .error (.same e)

variable (hhost : host.Oblivious F n) (hdesign : design.Oblivious host F n) (hearly : F.Early n)
  (hF : F.Below n)

include hhost hdesign hearly hF

/-- Passes with different caches judge in step. -/
theorem visitor_inStep : Visitor.InStep (.caches design ops log log') (Expr.InBoth F ops)
    (.below n) (design.visitor host cx) (design.visitor host cx) := by
  refine ⟨fun {τ e e'} hτ hD _ => ?_⟩
  obtain ⟨rfl, he, hall⟩ := hD
  cases e with
  | call id ty op receiver arguments =>
    refine .bind (transformerOf_inStep hkeys (hall.head op rfl)) fun {υ a b} hυ ⟨ha, hb⟩ => ?_
    have hab := Except.ok.inj (ha.symm.trans hb)
    cases a with
    | none =>
      cases b with
      | none => exact .pure fun _ => .enter
      | some => cases hab
    | some made =>
      cases b with
      | none => cases hab
      | some made' =>
        obtain ⟨i, expand⟩ := made
        obtain ⟨j, expand'⟩ := made'
        obtain rfl : expand = expand' := Option.some.inj hab
        obtain ⟨marker, hmarker⟩ := exists_marker ha
        have hexpand := (Coupling.caches design ops log log').lift
          (Marker.transformer_oblivious hhost hearly hF hdesign hmarker i j cx
            (Pairing.le_trans hτ hυ) he)
        exact hexpand.bind fun _ hput => .pure fun hφ => .put (hput.mono hφ)
  | _ => exact .pure fun _ => .enter

end

end ExpanderDesign

/-! ## Recorded passes -/

/-- A lookup, and what it came to. -/
structure Lookup where
  operation : Operation
  result : Except Fault (Option SiteTransformer)

/-- The key of a lookup that was successful. -/
def Lookup.key? (lookup : Lookup) : Option Signature :=
  match lookup.result with
  | .ok _ => some lookup.operation.signature
  | .error _ => none

theorem Lookup.key?_eq_some {lookup : Lookup} {key : Signature} :
    lookup.key? = some key ↔
      lookup.operation.signature = key ∧ ∃ transformer, lookup.result = .ok transformer := by
  unfold key?
  cases lookup.result <;> simp

/-- A pass that writes its lookups down, the earliest first. -/
abbrev RecordedM := ExceptT Fault (StateM ((Trail × TransformerCache) × List Lookup))

/-- What is no lookup is not written down. -/
def PassM.toRecorded {α : Type} (run : PassM α) : RecordedM α := fun (s, lookups) =>
  let (result, s) := run s
  (result, (s, lookups))

instance : MonadLift PassM RecordedM := ⟨PassM.toRecorded⟩

namespace ExpanderDesign

/-- A lookup that is written down. -/
def recordedTransformerOf (design : ExpanderDesign) (op : Operation) :
    RecordedM (Option SiteTransformer) := fun (s, lookups) =>
  let (result, s) := design.transformerOf op s
  (result, (s, lookups ++ [⟨op, result⟩]))

/-- The visitor of a pass, with its lookups written down. -/
def recorder (design : ExpanderDesign) (host : Host) (cx : BuildContext) : Visitor RecordedM where
  judge e := do
    match e with
    | .call _ _ operation receiver arguments =>
      match ← design.recordedTransformerOf operation with
      | some transformer =>
        return .put (← transformer.apply host ⟨e, operation, receiver, arguments⟩ cx)
      | none => return .enter
    | _ => return .enter

/-- The expansion of an expression, with its lookups written down. -/
def recordExpr (design : ExpanderDesign) (host : Host) (e : Expr) (cx : BuildContext) :
    RecordedM Expr :=
  (design.recorder host cx).apply e

/-- The expansion of a lambda, with its lookups written down. -/
def recordLambda (design : ExpanderDesign) (host : Host) (f : Lambda) (cx : BuildContext) :
    RecordedM Lambda :=
  f.walk (design.recorder host cx)

end ExpanderDesign

/-- The same trail and cache, with lookups written down on the left. -/
def Coupling.erasing : Coupling ((Trail × TransformerCache) × List Lookup)
    (Trail × TransformerCache) where
  trails ρ t t' := t = t' ∧ ∀ i, ρ.rel i i
  states ρ s s' := s.1 = s' ∧ ∀ i, ρ.rel i i
  fresh ρ := by
    refine ⟨fun {τ t t'} _ ⟨ht, hτ⟩ => ⟨τ, τ.le_refl, ?_⟩⟩
    subst ht
    exact ⟨⟨rfl, hτ⟩, .ok (hτ _)⟩
  lift {α β ρ x y R} h := by
    refine ⟨fun {τ s s'} hτ ⟨hs, hrefl⟩ => ?_⟩
    subst hs
    obtain ⟨υ, hυ, ⟨ht, hrefl'⟩, hended⟩ := h.ended hτ ⟨rfl, hrefl⟩
    exact ⟨υ, hυ, ⟨Prod.ext ht rfl, hrefl'⟩, hended⟩

/-- Where nothing is renamed, runs in step come to the same. -/
theorem Coupling.outcome_erasing {α : Type} {R : Pairing → α → α → Prop} {x : RecordedM α}
    {y : PassM α} (h : InStep Coupling.erasing.states .same x y R)
    (hR : ∀ {ρ a b}, (∀ i, ρ.rel i i) → R ρ a b → a = b) (s : Trail × TransformerCache)
    (ls : List Lookup) :
    (outcome x (s, ls)).1 = (outcome y s).1 ∧ (outcome x (s, ls)).2.1 = (outcome y s).2 := by
  have hs : Coupling.erasing.states .same (s, ls) s := ⟨rfl, fun _ => rfl⟩
  obtain ⟨υ, -, ⟨hstate, hυ⟩, hended⟩ := h.ended (Pairing.le_refl _) hs
  refine ⟨?_, hstate⟩
  generalize (outcome x (s, ls)).1 = r, (outcome y s).1 = r' at hended
  cases hended with
  | ok hab => rw [hR hυ hab]
  | error he => rw [he.eq hυ]

theorem Expr.inherits_eq : Expr.Inherits Eq where
  parts h _ := by
    subst h
    exact List.forall₂_same.2 fun _ _ => rfl
  fn h _ hf hg := by
    subst h
    obtain rfl := Option.some.inj (hf.symm.trans hg)
    exact ⟨rfl, List.forall₂_same.2 fun _ _ => rfl⟩

namespace ExpanderDesign

section

variable {design : ExpanderDesign} {host : Host} {cx : BuildContext}

/-- A run goes in step with itself where nothing is renamed. -/
theorem inStep_self {run : RunM Expr} {ρ : Pairing} :
    InStep Coupling.erasing.trails ρ run run Expr.Paired := by
  refine ⟨fun {τ t t'} _ ⟨ht, hτ⟩ => ⟨τ, τ.le_refl, ?_⟩⟩
  subst ht
  refine ⟨⟨rfl, hτ⟩, ?_⟩
  cases (outcome run t).1 with
  | ok e => exact .ok (Expr.paired_self (Expr.all_of_forall (fun _ => ⟨hτ _, fun _ => hτ _⟩) e))
  | error e => exact .error (.same e)

/-- A pass does the same whether its lookups are written down or not. -/
theorem recorder_inStep {ρ : Pairing} : Visitor.InStep .erasing Eq ρ (design.recorder host cx)
    (design.visitor host cx) := by
  refine ⟨fun {τ e e'} _ hD _ => ?_⟩
  subst hD
  cases e with
  | call id ty op receiver arguments =>
    have hlookup : InStep Coupling.erasing.states τ (design.recordedTransformerOf op)
        (design.transformerOf op) fun _ a b => a = b := by
      refine ⟨fun {υ s s'} _ ⟨hs, hυ⟩ => ⟨υ, υ.le_refl, ?_⟩⟩
      subst hs
      refine ⟨⟨rfl, hυ⟩, ?_⟩
      change Ended _ υ (outcome (design.transformerOf op) s.1).1
        (outcome (design.transformerOf op) s.1).1
      cases (outcome (design.transformerOf op) s.1).1 with
      | ok a => exact .ok rfl
      | error e => exact .error (.same e)
    refine hlookup.bind fun {υ a b} _ hab => ?_
    subst hab
    cases a with
    | none => exact .pure fun _ => .enter
    | some made =>
      exact .bind (Coupling.erasing.lift inStep_self) fun _ hput =>
        .pure fun hφ => .put (hput.mono hφ)
  | _ => exact .pure fun _ => .enter

/-- A pass comes to the same whether its lookups are written down or not. -/
theorem outcome_recordExpr (host : Host) (cx : BuildContext) (s : Trail × TransformerCache)
    (ls : List Lookup) (e : Expr) :
    (outcome (design.recordExpr host e cx) (s, ls)).1 =
        (outcome (design.expandExpr host e cx) s).1 ∧
      (outcome (design.recordExpr host e cx) (s, ls)).2.1 =
        (outcome (design.expandExpr host e cx) s).2 := by
  have hself : e.Paired .same e :=
    Expr.paired_self (Expr.all_of_forall (fun _ => ⟨rfl, fun _ => rfl⟩) e)
  exact Coupling.outcome_erasing (Visitor.apply_inStep Expr.inherits_eq recorder_inStep rfl hself)
    (fun h => Expr.Paired.eq h) s ls

theorem outcome_recordLambda (host : Host) (cx : BuildContext) (s : Trail × TransformerCache)
    (ls : List Lookup) (f : Lambda) :
    (outcome (design.recordLambda host f cx) (s, ls)).1 =
        (outcome (design.expandLambda host f cx) s).1 ∧
      (outcome (design.recordLambda host f cx) (s, ls)).2.1 =
        (outcome (design.expandLambda host f cx) s).2 := by
  have hself : f.Paired .same f :=
    ⟨rfl, List.forall₂_same.2 fun _ _ => ⟨rfl, rfl, .same _⟩,
      Expr.paired_self (Expr.all_of_forall (fun _ => ⟨rfl, fun _ => rfl⟩) f.body)⟩
  exact Coupling.outcome_erasing (Visitor.walkFn_inStep Expr.inherits_eq recorder_inStep rfl
    (List.forall₂_same.2 fun _ _ => rfl) hself) (fun h => Lambda.Paired.eq h) s ls

end

end ExpanderDesign

/-! ## Expanders in use -/

/-- What holds of a cache and of the lookups that led to it. -/
structure Ledger (design : ExpanderDesign) (ops : Operation → Prop) (cache : TransformerCache)
    (lookups : List Lookup) : Prop where
  caches : design.Caches ops cache
  keys : (cache.map (·.1)).Nodup
  offered {l : Lookup} : l ∈ lookups → SiteTransformer.found l.result = design.offers l.operation
  kept {l : Lookup} {transformer : Option SiteTransformer} : l ∈ lookups →
    l.result = .ok transformer → cache.lookup l.operation.signature = some transformer
  entered {key : Signature} : key ∈ cache.map (·.1) → ∃ l ∈ lookups, l.key? = some key

namespace Ledger

variable {design : ExpanderDesign} {ops : Operation → Prop} {cache : TransformerCache}
  {lookups : List Lookup} {op : Operation} {s s' : Trail × TransformerCache}
  {r : Except Fault (Option SiteTransformer)}

theorem nil : Ledger design ops [] [] where
  caches := ExpanderDesign.caches_nil
  keys := .nil
  offered := nofun
  kept := nofun
  entered := nofun

/-- A key is in the cache exactly if it was looked up successfully. -/
theorem mem_keys (h : Ledger design ops cache lookups) {key : Signature} :
    key ∈ cache.map (·.1) ↔ key ∈ lookups.filterMap Lookup.key? := by
  rw [List.mem_filterMap]
  refine ⟨h.entered, fun ⟨l, hl, hkey⟩ => ?_⟩
  obtain ⟨rfl, transformer, hresult⟩ := Lookup.key?_eq_some.1 hkey
  obtain ⟨before, after, hcache, -⟩ := List.lookup_eq_some_iff.1 (h.kept hl hresult)
  rw [hcache]
  simp

/-- The cache has as many entries as there are keys that were looked up successfully. -/
theorem length_eq (h : Ledger design ops cache lookups) :
    cache.length = (lookups.filterMap Lookup.key?).dedup.length := by
  have hperm : List.Perm (cache.map (·.1)) (lookups.filterMap Lookup.key?).dedup :=
    (List.perm_ext_iff_of_nodup h.keys (List.nodup_dedup _)).2 fun key => by
      rw [List.mem_dedup, h.mem_keys]
  rw [← hperm.length_eq, List.length_map]

section

variable (hkeys : ∀ {op op' : Operation}, ops op → ops op' → op.signature = op'.signature →
  op.markers = op'.markers)

include hkeys

/-- A lookup is entered. -/
theorem lookup (h : Ledger design ops s.2 lookups) (hop : ops op)
    (hlookup : design.LooksUp op s r s') : Ledger design ops s'.2 (lookups ++ [⟨op, r⟩]) := by
  have offered {l : Lookup} (hl : l ∈ lookups ++ [⟨op, r⟩]) :
      SiteTransformer.found l.result = design.offers l.operation := by
    rcases List.mem_append.1 hl with hl | hl
    · exact h.offered hl
    · obtain rfl := List.mem_singleton.1 hl
      exact (hlookup.offers hop h.caches).1
  have caches : design.Caches ops s'.2 := hlookup.caches hkeys hop h.caches
  have before {key : Signature} (hkey : key ∈ s.2.map (·.1)) :
      ∃ l ∈ lookups ++ [⟨op, r⟩], l.key? = some key := by
    obtain ⟨l, hl, heq⟩ := h.entered hkey
    exact ⟨l, List.mem_append_left _ hl, heq⟩
  cases hlookup with
  | @known transformer hfound =>
    refine ⟨caches, h.keys, offered, fun {l _} hl hresult => ?_, before⟩
    rcases List.mem_append.1 hl with hl | hl
    · exact h.kept hl hresult
    · obtain rfl := List.mem_singleton.1 hl
      obtain rfl := Except.ok.inj hresult
      exact hfound
  | failed hfound hoffers =>
    refine ⟨caches, h.keys, offered, fun {l _} hl hresult => ?_, before⟩
    rcases List.mem_append.1 hl with hl | hl
    · exact h.kept hl hresult
    · obtain rfl := List.mem_singleton.1 hl
      cases hresult
  | @made transformer t hfound hmakes _ _ =>
    have hnew : op.signature ∉ s.2.map (·.1) := fun hmem => by
      obtain ⟨⟨key, old⟩, hmem, rfl⟩ := List.mem_map.1 hmem
      rw [List.lookup_eq_none_iff] at hfound
      simpa using hfound _ hmem
    refine ⟨caches, ?_, offered, fun {l _} hl hresult => ?_, fun {key} hkey => ?_⟩
    · simpa [List.nodup_append] using ⟨h.keys, fun key old hmem heq =>
        hnew (heq ▸ List.mem_map_of_mem hmem)⟩
    · rw [List.lookup_append]
      rcases List.mem_append.1 hl with hl | hl
      · rw [h.kept hl hresult, Option.some_or]
      · obtain rfl := List.mem_singleton.1 hl
        obtain rfl := Except.ok.inj hresult
        simp [hfound]
    · rw [List.map_append] at hkey
      rcases List.mem_append.1 hkey with hkey | hkey
      · exact before hkey
      · obtain rfl : key = op.signature := by simpa using hkey
        exact ⟨⟨op, .ok transformer⟩, by simp, rfl⟩

variable {α : Type} {host : Host} {cx : BuildContext}

omit hkeys in
/-- What is no lookup is not entered. -/
theorem keeps_lift {run : RunM α} :
    Keeps (fun s : (Trail × TransformerCache) × List Lookup =>
      Ledger design ops s.1.2 (lookups ++ s.2)) (liftM run : RecordedM α) :=
  fun _ hs => ⟨hs, trivial⟩

/-- The lookups at a node are entered. -/
theorem keeps_judge {e : Expr} (he : e.CallsIn ops) :
    Keeps (fun s : (Trail × TransformerCache) × List Lookup =>
      Ledger design ops s.1.2 (lookups ++ s.2)) ((design.recorder host cx).judge e) := by
  cases e with
  | call id ty op receiver arguments =>
    refine Keeps.bind (fun s hs => ⟨?_, trivial⟩) fun transformer => ?_
    · have hlookup := hs.lookup hkeys (he op rfl) (ExpanderDesign.looksUp (s := s.1) rfl)
      rwa [List.append_assoc] at hlookup
    · cases transformer with
      | none => exact .pure
      | some made => exact keeps_lift.bind fun _ => .pure
  | _ => exact .pure

/-- The lookups of a pass over an expression are entered. -/
theorem expandExpr (h : Ledger design ops cache lookups) {e : Expr}
    (he : e.All (Expr.CallsIn ops)) (host : Host) (cx : BuildContext) (t : Trail) :
    Ledger design ops (outcome (design.expandExpr host e cx) (t, cache)).2.2
      (lookups ++ (outcome (design.recordExpr host e cx) ((t, cache), [])).2.2) := by
  have hkeeps : Keeps (fun s : (Trail × TransformerCache) × List Lookup =>
      Ledger design ops s.1.2 (lookups ++ s.2)) (design.recordExpr host e cx) :=
    Visitor.apply_keeps (fun _ => keeps_lift) (fun _ => keeps_judge hkeys) he
  rw [← (design.outcome_recordExpr host cx (t, cache) [] e).2]
  exact (hkeeps ((t, cache), []) (by simpa using h)).1

/-- The lookups of a pass over a lambda are entered. -/
theorem expandLambda (h : Ledger design ops cache lookups) {f : Lambda}
    (hf : f.All (Expr.CallsIn ops)) (host : Host) (cx : BuildContext) (t : Trail) :
    Ledger design ops (outcome (design.expandLambda host f cx) (t, cache)).2.2
      (lookups ++ (outcome (design.recordLambda host f cx) ((t, cache), [])).2.2) := by
  have hkeeps : Keeps (fun s : (Trail × TransformerCache) × List Lookup =>
      Ledger design ops s.1.2 (lookups ++ s.2)) (design.recordLambda host f cx) :=
    (Visitor.walkFn_upholds (R := fun _ _ => True) (fun _ => keeps_lift) fun d hd =>
      Visitor.apply_keeps (fun _ => keeps_lift) (fun _ => keeps_judge hkeys) (hf d hd)).keeps
  rw [← (design.outcome_recordLambda host cx (t, cache) [] f).2]
  exact (hkeeps ((t, cache), []) (by simpa using h)).1

end

end Ledger

/-- An expander that has been used for lookups and for passes over calls of the operations in use,
from whatever trails and however they ended, and the lookups it has made. -/
inductive Expander.Used (ops : Operation → Prop) : Expander → List Lookup → Prop
  | new (design : ExpanderDesign) : Expander.Used ops ⟨design, []⟩ []
  | lookup {expander : Expander} {lookups : List Lookup} {op : Operation} {t t' : Trail}
      {cache : TransformerCache} {r : Except Fault (Option SiteTransformer)} :
    Expander.Used ops expander lookups → ops op →
    outcome (expander.design.transformerOf op) (t, expander.cache) = (r, (t', cache)) →
    Expander.Used ops { expander with cache } (lookups ++ [⟨op, r⟩])
  | expandExpr {expander : Expander} {lookups : List Lookup} {host : Host} {e : Expr}
      {cx : BuildContext} {t t' : Trail} {cache : TransformerCache} {r : Except Fault Expr} :
    Expander.Used ops expander lookups → e.All (Expr.CallsIn ops) →
    outcome (expander.design.expandExpr host e cx) (t, expander.cache) = (r, (t', cache)) →
    Expander.Used ops { expander with cache } (lookups ++
      (outcome (expander.design.recordExpr host e cx) ((t, expander.cache), [])).2.2)
  | expandLambda {expander : Expander} {lookups : List Lookup} {host : Host} {f : Lambda}
      {cx : BuildContext} {t t' : Trail} {cache : TransformerCache} {r : Except Fault Lambda} :
    Expander.Used ops expander lookups → f.All (Expr.CallsIn ops) →
    outcome (expander.design.expandLambda host f cx) (t, expander.cache) = (r, (t', cache)) →
    Expander.Used ops { expander with cache } (lookups ++
      (outcome (expander.design.recordLambda host f cx) ((t, expander.cache), [])).2.2)

/-- Two passes from different trails and caches come to the same, up to generated names, and write
the same lines to their logs. -/
def PassM.Agrees {α : Type} (R : Pairing → α → α → Prop) (n : NodeId) (run : PassM α)
    (s s' : Trail × TransformerCache) : Prop :=
  ∃ ρ, .below n ≤ ρ ∧ Ended (R ρ) ρ (outcome run s).1 (outcome run s').1 ∧
    ∃ lines, (outcome run s).2.1.log = s.1.log ++ lines ∧
      (outcome run s').2.1.log = s'.1.log ++ lines

/-- Passes that go in step with different caches agree. -/
theorem PassM.agrees_of_inStep {α : Type} {R : Pairing → α → α → Prop} {n : NodeId}
    {run : PassM α} {design : ExpanderDesign} {ops : Operation → Prop}
    {s s' : Trail × TransformerCache}
    (h : InStep (Coupling.caches design ops s.1.log s'.1.log).states (.below n) run run R)
    (hs : n ≤ s.1.next) (hs' : n ≤ s'.1.next) (hcache : design.Caches ops s.2)
    (hcache' : design.Caches ops s'.2) : run.Agrees R n s s' := by
  have hstart : (Coupling.caches design ops s.1.log s'.1.log).states (.below n) s s' :=
    ⟨abreast_below hs hs', hcache, hcache'⟩
  obtain ⟨ρ, hρ, ⟨ht, -, -⟩, hended⟩ := h.ended (Pairing.le_refl _) hstart
  exact ⟨ρ, hρ, hended, ht.log⟩

/-- A lookup that fails leaves the cache as it is. -/
theorem ExpanderDesign.LooksUp.cache_eq {design : ExpanderDesign} {op : Operation}
    {s s' : Trail × TransformerCache} {fault : Fault}
    (h : design.LooksUp op s (.error fault) s') : s'.2 = s.2 := by
  cases h
  rfl

theorem Expr.callsIn_param (ops : Operation → Prop) (x : Param) :
    (Expr.param x).All (Expr.CallsIn ops) :=
  .leaf (Expr.callsIn_of_none rfl) rfl

theorem Expr.callsIn_call_param {ops : Operation → Prop} {op : Operation} (hop : ops op)
    (id : NodeId) (ty : Ty) (x : Param) :
    (Expr.call id ty op none [.param x]).All (Expr.CallsIn ops) :=
  .mk (fun _ h => Option.some.inj h ▸ hop) fun _ hd =>
    List.mem_singleton.1 hd ▸ Expr.callsIn_param ops x

/-- What a new expander finds is what the markers offer. -/
theorem ExpanderDesign.found_new (design : ExpanderDesign) (op : Operation) (t : Trail) :
    SiteTransformer.found (outcome (design.transformerOf op) (t, [])).1 = design.offers op := by
  have hcache : design.Caches (fun _ => True) [] := @caches_nil design _
  rcases h : outcome (design.transformerOf op) (t, []) with ⟨r, s⟩
  exact ((looksUp h).offers trivial hcache).1

namespace Expander

variable {ops : Operation → Prop} {expander : Expander} {lookups : List Lookup}
  (hkeys : ∀ {op op' : Operation}, ops op → ops op' → op.signature = op'.signature →
    op.markers = op'.markers)

include hkeys

/-- What has become of the cache of an expander is told by the lookups. -/
theorem Used.ledger (h : expander.Used ops lookups) :
    Ledger expander.design ops expander.cache lookups := by
  induction h with
  | new design => exact .nil
  | lookup _ hop hrun ih => exact ih.lookup hkeys hop (ExpanderDesign.looksUp hrun)
  | @expandExpr expander lookups host e cx t _ _ _ _ he hrun ih =>
    have hentered := ih.expandExpr hkeys he host cx t
    rwa [hrun] at hentered
  | @expandLambda expander lookups host f cx t _ _ _ _ hf hrun ih =>
    have hentered := ih.expandLambda hkeys hf host cx t
    rwa [hrun] at hentered

/-- A used expander does what a new one would do, if custom transformers, resolvers and natives look
neither at identities nor at what is kept : every lookup has come to the same, and every pass comes
to the same, up to generated names. What it keeps is one instance for each key that was looked up
successfully. -/
theorem Used.cache_unseen {F : Forest} {n : NodeId} {host : Host} (h : expander.Used ops lookups)
    (hhost : host.Oblivious F n) (hdesign : expander.design.Oblivious host F n)
    (hearly : F.Early n) (hF : F.Below n) :
    (∀ l ∈ lookups, ∀ t : Trail, SiteTransformer.found l.result =
      SiteTransformer.found (outcome (expander.design.transformerOf l.operation) (t, [])).1) ∧
    (∀ (e : Expr) (cx : BuildContext) (t t' : Trail), F.nodes e → e.All (Expr.CallsIn ops) →
      n ≤ t.next → n ≤ t'.next → PassM.Agrees Expr.Paired n (expander.design.expandExpr host e cx)
        (t, expander.cache) (t', [])) ∧
    (∀ (f : Lambda) (cx : BuildContext) (t t' : Trail), F.fns f → f.All (Expr.CallsIn ops) →
      n ≤ t.next → n ≤ t'.next → PassM.Agrees Lambda.Paired n
        (expander.design.expandLambda host f cx) (t, expander.cache) (t', [])) ∧
    (∀ l ∈ lookups, ∀ l' ∈ lookups, ∀ instance₁ instance₂ : Option SiteTransformer,
      l.operation.signature = l'.operation.signature → l.result = .ok instance₁ →
        l'.result = .ok instance₂ → instance₁ = instance₂) ∧
    expander.cachedOperations = (lookups.filterMap Lookup.key?).dedup.length ∧
    ∀ (op : Operation) (t : Trail) (fault : Fault) (s : Trail × TransformerCache),
      outcome (expander.design.transformerOf op) (t, expander.cache) = (.error fault, s) →
        s.2 = expander.cache := by
  have hledger := h.ledger hkeys
  refine ⟨fun l hl t => ?_, fun e cx t t' he hcalls ht ht' => ?_,
    fun f cx t t' hf hcalls ht ht' => ?_, fun l hl l' hl' _ _ hkey hresult hresult' => ?_,
    hledger.length_eq, fun op t fault s hrun => (ExpanderDesign.looksUp hrun).cache_eq⟩
  · rw [hledger.offered hl, expander.design.found_new]
  · have hv : Visitor.InStep (.caches expander.design ops t.log t'.log) (Expr.InBoth F ops)
        (.below n) (expander.design.visitor host cx) (expander.design.visitor host cx) :=
      ExpanderDesign.visitor_inStep hkeys hhost hdesign hearly hF
    exact PassM.agrees_of_inStep (Visitor.apply_inStep Expr.inherits_inBoth hv ⟨rfl, he, hcalls⟩
      (F.paired hF (Pairing.le_refl _) he)) ht ht' hledger.caches ExpanderDesign.caches_nil
  · have hv : Visitor.InStep (.caches expander.design ops t.log t'.log) (Expr.InBoth F ops)
        (.below n) (expander.design.visitor host cx) (expander.design.visitor host cx) :=
      ExpanderDesign.visitor_inStep hkeys hhost hdesign hearly hF
    have hparams : List.Forall₂ (fun p q => Expr.InBoth F ops (.param p) (.param q)) f.params
        f.params := List.forall₂_same.2 fun p hp => ⟨rfl, F.param hf hp, hcalls.param hp⟩
    exact PassM.agrees_of_inStep (Visitor.walkFn_inStep Expr.inherits_inBoth hv
      ⟨rfl, F.body hf, hcalls.body⟩ hparams (F.paired_fn hF (Pairing.le_refl _) hf)) ht ht'
      hledger.caches ExpanderDesign.caches_nil
  · have hfound := hledger.kept hl hresult
    rw [hkey, hledger.kept hl' hresult'] at hfound
    exact (Option.some.inj hfound).symm

omit hkeys in
/-- An expander that has looked two operations up and then expands calls of them : one whose mapper
a resolver finds, and one that has a transformer from outside. -/
theorem Used.cache_unseen_mapped :
    let p : Param := ⟨0, "p", .int⟩
    let g : Lambda := ⟨3, [p], .binary 2 .int .add (.param p) (.constant 1 .int (.int 1))⟩
    let m : Mapper := ⟨1, .int, .int, g, g⟩
    let first : Operation := ⟨⟨"Site", "First", 1, false⟩, [.custom "First"], none⟩
    let x : Param := ⟨4, "x", .int⟩
    let found : Expr := .call 5 .int .includeResolved none [.param x]
    let taken : Expr := .call 6 .int first none [.param x]
    let f : Lambda := ⟨8, [x], .binary 7 .int .add found taken⟩
    let design : ExpanderDesign :=
      ⟨{ resolvers := [.ofTable ⟨[.mapper m]⟩] }, Stock.siteTransformer⟩
    let ops (op : Operation) : Prop := op = .includeResolved ∨ op = first
    ∃ (t : Trail) (cache : TransformerCache) (lookups : List Lookup) (f' : Lambda)
        (s : Trail × TransformerCache),
      Used ops ⟨design, cache⟩ lookups ∧
      outcome (design.expandLambda (.bare 0) f (.ofLambda f)) (t, cache) = (.ok f', s) ∧
      f'.text = "x => ((x + 1) + x)" ∧
      PassM.Agrees Lambda.Paired 9 (design.expandLambda (.bare 0) f (.ofLambda f)) (t, cache)
        ({ next := 9 }, []) ∧
      (⟨design, cache⟩ : Expander).cachedOperations = 2 := by
  intro p g m first x found taken f design ops
  let F : Forest := .ofLists
    [.param p, .constant 1 .int (.int 1), g.body, .param x, found, taken, f.body] [g, f]
    (by decide) (by decide) (by simp [Expr.parts, f, g, found, taken])
    (by simp [Expr.fn?, f, g, found, taken]) (by simp [f, g]) (by simp)
  have hF : F.Below 9 := Forest.below_ofLists (by decide) (by decide)
  have hcalls : f.All (Expr.CallsIn ops) := by
    intro d hd
    rcases List.mem_pair.1 hd with rfl | rfl
    · exact Expr.callsIn_param ops x
    · refine .mk (Expr.callsIn_of_none rfl) fun d hd => ?_
      rcases List.mem_pair.1 hd with rfl | rfl
      · exact Expr.callsIn_call_param (.inl rfl) ..
      · exact Expr.callsIn_call_param (.inr rfl) ..
  let inlining : SiteTransformer := ⟨9, CallSite.inlineResolved design.settings.resolvers⟩
  let taking : SiteTransformer := ⟨10, fun _ _ site _ => return site.arguments.head?.getD site.node⟩
  let cache : TransformerCache :=
    [(Operation.includeResolved.signature, some inlining), (first.signature, some taking)]
  have hfound : outcome (design.transformerOf .includeResolved) ({ next := 9 }, []) =
    (.ok (some inlining), ({ next := 10 }, cache.take 1)) := rfl
  have htaken : outcome (design.transformerOf first) ({ next := 10 }, cache.take 1) =
    (.ok (some taking), ({ next := 11 }, cache)) := rfl
  have hused : Used ops ⟨design, cache⟩
      [⟨.includeResolved, .ok (some inlining)⟩, ⟨first, .ok (some taking)⟩] :=
    .lookup (.lookup (.new design) (.inl rfl) hfound) (.inr rfl) htaken
  have hearly : F.Early 9 := by
    intro id ty v h
    obtain ⟨-, -, rfl⟩ : id = 1 ∧ ty = .int ∧ v = .int 1 := by
      simpa [F, Forest.ofLists, f, g, found, taken] using h
    exact .int 1
  have hdesign : design.Oblivious (.bare 0) F 9 := by
    refine ⟨fun {resolver} hmem => ?_, Stock.siteTransformer_oblivious _ hF⟩
    obtain rfl := List.mem_singleton.1 hmem
    refine Resolver.ofTable_oblivious fun handle hhandle m' hm => ?_
    obtain rfl := List.mem_singleton.1 hhandle
    obtain rfl := Option.some.inj hm
    simp [F, Forest.ofLists, m]
  have hkeys {op op' : Operation} (h : ops op) (h' : ops op') (heq : op.signature = op'.signature) :
      op.markers = op'.markers := by
    rcases h with rfl | rfl <;> rcases h' with rfl | rfl
    · rfl
    · exact absurd heq (by decide)
    · exact absurd heq (by decide)
    · rfl
  obtain ⟨-, -, hagrees, -, hcount, -⟩ :=
    cache_unseen hkeys hused (Host.bare_oblivious 0) hdesign hearly hF
  let f' : Lambda := ⟨13, [x], .binary 12 .int .add
    (.binary 11 .int .add (.param x) (.constant 1 .int (.int 1))) (.param x)⟩
  have hexpanded : outcome (design.expandLambda (.bare 0) f (.ofLambda f))
    ({ next := 11 }, cache) = (.ok f', ({ next := 14 }, cache)) := Prod.ext rfl rfl
  exact ⟨_, cache, _, f', _, hused, hexpanded, rfl,
    hagrees f (.ofLambda f) { next := 11 } { next := 9 } (by simp [F, Forest.ofLists]) hcalls
      (by decide) (by decide), hcount⟩

end Expander

/-! ## Transformers that count -/

/-- Puts the number of calls that the instance has expanded before. -/
def SiteExpansion.counting : SiteExpansion := fun self _ _ _ => do
  let count : Int64 := match ← kept self with
    | some (.int count) => count
    | _ => 0
  keep self (.int (count + 1))
  Expr.mkInt count

/-- An instance that keeps something for itself shows that it is one instance : a used expander goes
on counting, where a new one with the same settings starts anew. -/
theorem Expander.Used.cache_seen_counting :
    let op : Operation := ⟨⟨"Site", "Count", 1, false⟩, [.custom "Counting"], none⟩
    let x : Param := ⟨0, "x", .int⟩
    let f : Lambda := ⟨2, [x], .call 1 .int op none [.param x]⟩
    let design : ExpanderDesign := ⟨{}, fun _ _ => .ok .counting⟩
    let run : PassM Lambda := design.expandLambda (.bare 0) f (.ofLambda f)
    ∃ (t : Trail) (cache : TransformerCache) (lookups : List Lookup) (g again anew : Lambda)
        (s s' : Trail × TransformerCache),
      outcome run ({ next := 3 }, []) = (.ok g, (t, cache)) ∧ g.text = "x => 0" ∧
      Used (· = op) ⟨design, cache⟩ lookups ∧
      outcome run (t, cache) = (.ok again, s) ∧ again.text = "x => 1" ∧
      outcome run (t, []) = (.ok anew, s') ∧ anew.text = "x => 0" ∧
      ¬ PassM.Agrees Lambda.Paired 3 run (t, cache) (t, []) := by
  intro op x f design run
  let t : Trail := { next := 6, register := { memory := [(3, .int 1)] } }
  let cache : TransformerCache := [(op.signature, some ⟨3, .counting⟩)]
  let put (id : NodeId) (i : Int64) : Lambda := ⟨id + 1, [x], .constant id .int (.int i)⟩
  have hrun : outcome run ({ next := 3 }, []) = (.ok (put 4 0), (t, cache)) :=
    Prod.ext rfl rfl
  have hcalls : f.All (Expr.CallsIn (· = op)) := by
    intro d hd
    rcases List.mem_pair.1 hd with rfl | rfl
    · exact Expr.callsIn_param _ x
    · refine Expr.callsIn_call_param ?_ ..
      rfl
  obtain ⟨s, hagain⟩ : ∃ s, outcome run (t, cache) = (.ok (put 6 1), s) := ⟨_, rfl⟩
  obtain ⟨s', hanew⟩ : ∃ s', outcome run (t, []) = (.ok (put 7 0), s') := ⟨_, rfl⟩
  refine ⟨t, cache, _, put 4 0, put 6 1, put 7 0, s, s', hrun, rfl,
    .expandLambda (.new design) hcalls hrun, hagain, rfl, hanew, rfl, ?_⟩
  rintro ⟨ρ, -, hended, -⟩
  rw [hagain, hanew] at hended
  cases hended with
  | ok h => cases h.body

end ObjectMapping
