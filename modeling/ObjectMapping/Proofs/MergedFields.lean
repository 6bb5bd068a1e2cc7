import ObjectMapping.Proofs.Invoking
import ObjectMapping.Proofs.Merging
import ObjectMapping.Proofs.Tracking

/-!
# The fields of what a merged lambda yields

The members that only one side of a merge assigns keep their values, in which the parameters of the
source are renamed to those of the extension. `Lambda.merge_fields` says what that means when the
lambdas are invoked : such a field has the value that its own side gives it, on the same arguments.
The renaming has to keep the parameters of the value apart, since it does not look at binders and
runs over the values of both sides alike. `Lambda.merge_fields_clash` shows what else comes of it.

Each invocation makes its own objects, so that values are the same up to their identities
(`Value.SharesField`).
-/

namespace ObjectMapping

open RunM

/-! ## Renaming parameters -/

namespace Replacement

variable {old new : List Param}

/-- A parameter that comes first in two pairs of parameters comes before the same one. -/
theorem eq_of_mem_zip (hold : old.Nodup) (hlen : old.length = new.length) {p q q' : Param}
    (h : (p, q) ∈ old.zip new) (h' : (p, q') ∈ old.zip new) : q = q' := by
  have hfst : ((old.zip new).map Prod.fst).Nodup := by
    rwa [List.map_fst_zip (Nat.le_of_eq hlen)]
  exact congrArg Prod.snd (List.inj_on_of_nodup_map hfst h h' rfl)

/-- Renaming parameters to those at the same places gives each of them the one at its place. -/
theorem eq_of_becomes_ofParams {F : Forest} (hF : ∀ p ∈ old ++ new, F.nodes (.param p))
    (hold : old.Nodup) (hlen : old.length = new.length) {p q z : Param}
    (hpq : (p, q) ∈ old.zip new) (h : p.Becomes (.replacing (ofParams old new)) z) : z = q := by
  rcases h with ⟨r, hr, hp, hz⟩ | ⟨hnot | hstands, rfl⟩
  · obtain ⟨p', -, q', -, rfl⟩ := mem_ofParams hr
    obtain rfl := Expr.param.inj hp
    obtain rfl := Expr.param.inj hz
    exact eq_of_mem_zip hold hlen (mem_ofParams_iff.1 hr).1 hpq
  · by_contra hne
    obtain ⟨hp, hq⟩ := List.of_mem_zip hpq
    have hids : z.id ≠ q.id := fun heq =>
      hne (F.param_eq (hF z (by simp [hp])) (hF q (by simp [hq])) heq)
    exact hnot _ (mem_ofParams_iff.2 ⟨hpq, hids⟩) rfl
  · exact hstands.elim

theorem ofParams_renames {F : Forest} (hF : ∀ p ∈ new, F.nodes (.param p)) (hold : old.Nodup)
    (hlen : old.length = new.length) : (Judgement.replacing (ofParams old new)).Renames F := by
  refine Judgement.replacing_renames (fun r hr => ?_) fun r hr r' hr' heq => ?_
  · obtain ⟨p, -, q, hq, rfl⟩ := mem_ofParams hr
    exact ⟨hF q hq, p, q, rfl⟩
  · obtain ⟨p, -, q, -, rfl⟩ := mem_ofParams hr
    obtain ⟨p', -, q', -, rfl⟩ := mem_ofParams hr'
    obtain rfl := Expr.param.inj heq
    rw [eq_of_mem_zip hold hlen (mem_ofParams_iff.1 hr).1 (mem_ofParams_iff.1 hr').1]

end Replacement

/-- Where an expression of the fragment has a value, what becomes of it when its parameters are
renamed has the same one wherever it is evaluated, up to the objects that the two runs make, if the
parameters that are bound have the values of their new ones. -/
theorem Expr.Becomes.reaches_alike {F : Forest} {n : NodeId} {host : Host}
    (hhost : host.Respects F n) (hknown : F.Known n) {J : Judgement} (hJ : J.Renames F)
    {e e' : Expr} (he : F.nodes e) (hfirst : e.FirstOrder) (h : e.Becomes J e')
    (hclash : ¬ e.Clashes J) {env env' : Env} (henv : env.Alike (World.start F n) env)
    (hlookup : ∀ y z, e.Free y → y.Becomes J z →
      env.lookup y.id = env'.lookup z.id ∨ env.lookup y.id = none)
    {k : Nat} {s s' : Site} {t t' : Trail} {u : Value} (hle : n ≤ t.next)
    (hrun : outcome (e.evalIn host (Function.callWithin host k) env s) t = (.ok u, t')) :
    Reaches (n ≤ ·.next) (e'.evalIn host (Function.callWithin host k) env' s') fun u' =>
      ∃ W : World F n, u.Alike W u' := by
  intro t₂ hle'
  refine ⟨(evalIn_advances (Function.callWithin_advances host k) env' s' e' (.above n) t₂ hle').1,
    ?_⟩
  -- the run is made again where the second one starts, and is renamed there
  have htracks : Tracks (World.start F n) (e.evalIn host (Function.callWithin host k) env s)
      (fun _ => e.evalIn host (Function.callWithin host k) env s) Value.Alike :=
    evalIn_tracks hhost hknown (Function.callWithin_tracks_within hhost hknown k) he henv rfl
  obtain ⟨b, t₃, W, ⟨N, hagain⟩, -, -, hub⟩ :=
    htracks.ok (World.le_refl _) (World.start_fits hle hle') hrun
  have hrenamed : Renamed (fun _ => True) F J env env' e e' := by
    refine ⟨he, hfirst, h, hclash, fun {y z} hy hz => ?_⟩
    rcases hlookup y z hy hz with heq | hnone
    · cases hbound : env.lookup y.id with
      | none => exact .inr ⟨hbound, trivial⟩
      | some v => exact .inl ⟨heq, by simp [hbound]⟩
    · exact .inr ⟨hnone, trivial⟩
  have hb := (hrenamed.refines hJ k s s').ok (hagain N (Nat.le_refl N))
  exact ⟨b, by rw [hb], W, hub⟩

/-! ## Merging constructions -/

/-- Two values have the same value in a field, up to the identities of objects made from `n` on. -/
def Value.SharesField (F : Forest) (n : NodeId) (name : String) (v w : Value) : Prop :=
  ∃ (W : World F n) (u u' : Value),
    v.field name = .ok u ∧ w.field name = .ok u' ∧ u.Alike W u'

/-- A lambda of the fragment that constructs an object by assignments alone, which hold no
placeholders. -/
structure Lambda.Constructs (F : Forest) (f : Lambda) (as : List Assignment) : Prop where
  fn : F.fns f
  params : f.params.Nodup
  body : ∃ i ty, f.body = .construct i ty [] as
  first : f.body.FirstOrder
  plain : f.body.outermost Expr.isPrevious = []

/-- Different members of the assignments have different names. -/
def Assignment.NamesApart (as : List Assignment) : Prop :=
  ∀ a ∈ as, ∀ b ∈ as, a.member.name = b.member.name → a.member.same b.member = true

/-- The names of different members, each assigned once, are different. -/
theorem Assignment.nodup_names {all as : List Assignment} (hall : NamesApart all)
    (hmembers : ∀ a ∈ as, ∃ b ∈ all, a.member = b.member)
    (has : as.Pairwise fun a b => a.member.same b.member = false) :
    (as.map (·.member.name)).Nodup := by
  refine List.pairwise_map.2 (has.imp_of_mem fun {a b} ha hb hne heq => ?_)
  obtain ⟨a', ha', hmember⟩ := hmembers a ha
  obtain ⟨b', hb', hmember'⟩ := hmembers b hb
  rw [hmember, hmember'] at hne heq
  rw [hall a' ha' b' hb' heq] at hne
  cases hne

section

variable {rs : List Replacement} {source extension merged result : List Assignment} {a : Assignment}

/-- What becomes of a value that the source alone assigns when parameters are renamed in what a
merge has made. -/
theorem Assignment.exists_of_kept (hrs : ∀ r ∈ rs, ∃ p, r.old = .param p)
    (hkept : List.Forall₂ (Assignment.Override (.replacing []))
      (source.map fun a => (a, Assignment.find? a.member extension)) merged)
    (hresult : List.Forall₂ (fun r b => b.member = r.member ∧
      r.value.Becomes (.replacing rs) b.value) merged result)
    (ha : a ∈ source) (hfind : find? a.member extension = none) :
    ∃ b ∈ result, b.member = a.member ∧ a.value.Becomes (.replacing rs) b.value := by
  obtain ⟨r, hr, hover⟩ := forall₂_mem_left hkept (List.mem_map_of_mem ha)
  obtain ⟨b, hb, hmember, hvalue⟩ := forall₂_mem_left hresult hr
  rw [hfind] at hover
  cases hover with
  | kept h =>
    exact ⟨b, hb, hmember, h.replacing_entered hrs (by simp [Judgement.replacing])
      (fun _ => False.elim) (Expr.outermost_never _) hvalue⟩

/-- What becomes of a value that the extension alone assigns and that holds no placeholders. -/
theorem Assignment.exists_of_added (hrs : ∀ r ∈ rs, ∃ p, r.old = .param p)
    (hadded : List.Forall₂
      (fun a r => r.member = a.member ∧ a.value.Becomes (.filling none) r.value)
      (extension.filter fun a => (Assignment.find? a.member source).isNone) merged)
    (hresult : List.Forall₂ (fun r b => b.member = r.member ∧
      r.value.Becomes (.replacing rs) b.value) merged result)
    (ha : a ∈ extension) (hfind : find? a.member source = none)
    (hplain : a.value.outermost Expr.isPrevious = []) :
    ∃ b ∈ result, b.member = a.member ∧ a.value.Becomes (.replacing rs) b.value := by
  obtain ⟨r, hr, hmember, h⟩ :=
    forall₂_mem_left hadded (List.mem_filter.2 ⟨ha, by rw [hfind]; rfl⟩)
  obtain ⟨b, hb, hmember', hvalue⟩ := forall₂_mem_left hresult hr
  have hputs {e e' : Expr} : ¬ (Judgement.filling none).puts e e' := fun hput => nomatch hput.2
  have hstands {e : Expr} (hnot : e.isPrevious = false) : ¬ (Judgement.filling none).stands e :=
    fun hstands => Bool.false_ne_true (hnot.symm.trans hstands.1)
  exact ⟨b, hb, hmember'.trans hmember, h.replacing_entered hrs hputs hstands hplain hvalue⟩

end

namespace Lambda

section

variable {F : Forest} {f : Lambda} {as : List Assignment}

namespace Constructs

theorem param (hf : f.Constructs F as) {p : Param} (hp : p ∈ f.params) : F.nodes (.param p) :=
  F.param hf.fn hp

theorem ids (hf : f.Constructs F as) : (f.params.map (·.id)).Nodup :=
  List.Nodup.map_on (fun _ hp _ hq => F.param_eq (hf.param hp) (hf.param hq)) hf.params

theorem value (hf : f.Constructs F as) {a : Assignment} (ha : a ∈ as) :
    F.nodes a.value ∧ a.value.FirstOrder ∧ a.value.outermost Expr.isPrevious = [] := by
  obtain ⟨i, ty, hbody⟩ := hf.body
  have hpart : a.value ∈ f.body.parts := by
    rw [hbody]
    exact List.mem_append_right _ (List.mem_map_of_mem ha)
  refine ⟨F.part (F.body hf.fn) hpart, ?_, Expr.outermost_part hf.plain hpart⟩
  have hfirst := hf.first
  rw [hbody] at hfirst hpart
  cases hfirst with | node _ hparts => exact hparts _ hpart

/-- The names that are assigned are different, if different members have different names. -/
theorem nodup_names (hf : f.Constructs F as) (honce : F.AssignsOnce) {all : List Assignment}
    (hall : Assignment.NamesApart all) (hmem : ∀ a ∈ as, a ∈ all) :
    (as.map (·.member.name)).Nodup := by
  obtain ⟨i, ty, hbody⟩ := hf.body
  exact Assignment.nodup_names hall (fun a ha => ⟨a, hmem a ha, rfl⟩)
    (honce (hbody ▸ F.body hf.fn))

/-- A parameter of a value is bound if it is one of the lambda's, to the argument at its place. -/
theorem lookup (hf : f.Constructs F as) {y : Param} (hy : F.nodes (.param y)) (args : List Value) :
    (∃ i : Nat, f.params[i]? = some y ∧ Env.lookup y.id [Binding.ofArgs f.params args] = args[i]?) ∨
      y ∉ f.params ∧ Env.lookup y.id [Binding.ofArgs f.params args] = none := by
  by_cases hmem : y ∈ f.params
  · obtain ⟨i, hi⟩ := List.mem_iff_getElem?.1 hmem
    exact .inl ⟨i, hi, Env.lookup_ofArgs hf.ids hi args⟩
  · refine .inr ⟨hmem, Env.lookup_ofArgs_of_not_mem (fun p hp heq => hmem ?_) args⟩
    exact F.param_eq (hf.param hp) hy heq ▸ hp

end Constructs

end

/-- A field that is assigned on one side, and what becomes of it on the other, has the same value
when both sides are invoked on the same arguments. -/
theorem invoke_sharesField {F : Forest} {n : NodeId} {host : Host} (hhost : host.Respects F n)
    (hknown : F.Known n) {J : Judgement} (hJ : J.Renames F) {f g : Lambda} {j : NodeId} {ty : Ty}
    {as bs : List Assignment} {a b : Assignment} {args : List Value}
    {t₁ t₁' t₂ t₂' : Trail} {v w : Value} (hf : f.Constructs F as)
    (hg : g.body = .construct j ty [] bs) (has : (as.map (·.member.name)).Nodup)
    (hbs : (bs.map (·.member.name)).Nodup) (ha : a ∈ as) (hb : b ∈ bs)
    (hmember : b.member = a.member) (hbecomes : a.value.Becomes J b.value)
    (hclash : ¬ a.value.Clashes J)
    (hlookup : ∀ y z, a.value.Free y → y.Becomes J z →
      Env.lookup y.id [Binding.ofArgs f.params args] =
          Env.lookup z.id [Binding.ofArgs g.params args] ∨
        Env.lookup y.id [Binding.ofArgs f.params args] = none)
    (hargs : ∀ v ∈ args, v.Known F n) (hle : n ≤ t₁.next) (hle' : n ≤ t₂.next)
    (hrun : outcome (f.invoke host args) t₁ = (.ok v, t₁'))
    (hrun' : outcome (g.invoke host args) t₂ = (.ok w, t₂')) :
    v.SharesField F n a.member.name w := by
  obtain ⟨_, _, hbody⟩ := hf.body
  obtain ⟨hnode, hfirst, -⟩ := hf.value ha
  obtain ⟨k, u, s, t₃, t₃', hdepth, hu, heval, hnext⟩ := outcome_invoke_field hbody has hrun ha
  obtain ⟨k', u', s', t₄, t₄', hdepth', hu', heval', hnext'⟩ := outcome_invoke_field hg hbs hrun' hb
  obtain rfl : k = k' := Nat.succ.inj (hdepth.symm.trans hdepth')
  have henv : Env.Alike (World.start F n) [Binding.ofArgs f.params args]
      [Binding.ofArgs f.params args] :=
    .cons (Binding.ofArgs_alike _ (List.forall₂_same.2 hargs)) .nil
  obtain ⟨-, u'', hu'', W, halike⟩ := hbecomes.reaches_alike hhost hknown hJ hnode hfirst hclash
    henv hlookup (Nat.le_trans hle hnext) heval _ (Nat.le_trans hle' hnext')
  rw [heval'] at hu''
  obtain rfl := Except.ok.inj hu''
  exact ⟨W, u, u', hu, hmember ▸ hu', halike⟩

section

variable {F : Forest} {source extension result : Lambda} {sas xas : List Assignment} {t t' : Trail}

/-- What a merge makes of two constructions : it assigns the members of both, and in the values that
one side alone assigns the parameters of the source are renamed. -/
theorem merge_values (hs : source.Constructs F sas) (hx : extension.Constructs F xas)
    (honce : F.AssignsOnce) (hF : F.Below t.next)
    (h : outcome (source.merge extension) t = (.ok result, t')) :
    source.params.length = extension.params.length ∧ result.params = extension.params ∧
      ∃ k ty bs, result.body = .construct k ty [] bs ∧
        (bs.Pairwise fun a b => a.member.same b.member = false) ∧
        (∀ b ∈ bs, ∃ a ∈ sas ++ xas, b.member = a.member) ∧
        (∀ a, a ∈ sas ∧ Assignment.find? a.member xas = none ∨
            a ∈ xas ∧ Assignment.find? a.member sas = none →
          ∃ b ∈ bs, b.member = a.member ∧ a.value.Becomes
            (.replacing (Replacement.ofParams source.params extension.params)) b.value) := by
  obtain ⟨hlen, hresult, merged, hoverlaid, hbecomes, -⟩ :=
    outcome_merge hs.fn hx.fn honce hF hs.plain h
  have hover := hoverlaid.override
  refine ⟨hlen, hresult, ?_⟩
  have hold : ∀ r ∈ Replacement.ofParams source.params extension.params, ∃ p, r.old = .param p :=
    fun _ => Replacement.exists_old_of_mem_ofParams
  obtain ⟨i, sty, hsbody⟩ := hs.body
  obtain ⟨j, xty, hxbody⟩ := hx.body
  rw [hsbody, hxbody] at hover
  cases hover with
  | @construct _ _ k _ _ _ _ args _ _ kept added hargs hkept hadded hpairs =>
  obtain rfl : args = [] := by simpa using hargs
  have hrebuilt := hbecomes.rebuilt (Judgement.replacing_onParams hold) rfl
  generalize hbody : result.body = body at hrebuilt
  cases hrebuilt with
  | @construct _ k' _ _ args' _ bs hma hmb ha hb =>
  obtain rfl : args' = [] := by simpa using hma
  have hvalues := forall₂_assignments hmb hb
  refine ⟨k', xty, bs, rfl, Assignment.pairwise_of_members hmb hpairs, fun b hb => ?_, ?_⟩
  · obtain ⟨r, hr, heq, -⟩ := forall₂_mem_right hvalues hb
    rw [heq]
    exact Assignment.member_eq_of_override hkept hadded hr
  obtain ⟨kept', added', rfl, hkept', hadded'⟩ := forall₂_append_split hvalues
  rintro a (⟨ha, hfind⟩ | ⟨ha, hfind⟩)
  · obtain ⟨b, hb, hvalue⟩ := Assignment.exists_of_kept hold hkept hkept' ha hfind
    exact ⟨b, List.mem_append_left _ hb, hvalue⟩
  · obtain ⟨b, hb, hvalue⟩ :=
      Assignment.exists_of_added hold hadded hadded' ha hfind (hx.value ha).2.2
    exact ⟨b, List.mem_append_right _ hb, hvalue⟩

/-- A parameter in a value of the source is bound to the argument that its new parameter is bound to
in the extension. -/
theorem lookup_source (hs : source.Constructs F sas) (hx : extension.Constructs F xas)
    (hlen : source.params.length = extension.params.length) {y z : Param}
    (hy : F.nodes (.param y))
    (h : y.Becomes (.replacing (Replacement.ofParams source.params extension.params)) z)
    (args : List Value) :
    Env.lookup y.id [Binding.ofArgs source.params args] =
        Env.lookup z.id [Binding.ofArgs extension.params args] ∨
      Env.lookup y.id [Binding.ofArgs source.params args] = none := by
  rcases hs.lookup hy args with ⟨i, hi, hlookup⟩ | ⟨-, hnone⟩
  · obtain ⟨q, hq⟩ : ∃ q, extension.params[i]? = some q := by
      obtain ⟨hi, -⟩ := List.getElem?_eq_some_iff.1 hi
      exact ⟨_, List.getElem?_eq_getElem (hlen ▸ hi)⟩
    have hyq : (y, q) ∈ source.params.zip extension.params :=
      List.mem_of_getElem? (List.getElem?_zip_eq_some.2 ⟨hi, hq⟩)
    obtain rfl : z = q := Replacement.eq_of_becomes_ofParams
      (fun p hp => (List.mem_append.1 hp).elim hs.param hx.param) hs.params hlen hyq h
    exact .inl (hlookup.trans (Env.lookup_ofArgs hx.ids hq args).symm)
  · exact .inr hnone

/-- A parameter in a value of the extension stays bound to its argument if it is not renamed. -/
theorem lookup_extension (hx : extension.Constructs F xas) {rs : List Replacement} {y z : Param}
    (hy : F.nodes (.param y))
    (hkeeps : y ∈ extension.params → Replacement.isOld rs (.param y) = false)
    (h : y.Becomes (.replacing rs) z) (args : List Value) :
    Env.lookup y.id [Binding.ofArgs extension.params args] =
        Env.lookup z.id [Binding.ofArgs extension.params args] ∨
      Env.lookup y.id [Binding.ofArgs extension.params args] = none := by
  rcases hx.lookup hy args with ⟨i, hi, -⟩ | ⟨-, hnone⟩
  · have hnot := Replacement.isOld_eq_false_iff.1 (hkeeps (List.mem_of_getElem? hi))
    rcases h with ⟨r, hr, hold, -⟩ | ⟨-, rfl⟩
    · exact absurd hold (Expr.ne_of_not_same (hnot r hr))
    · exact .inl rfl
  · exact .inr hnone

/-- The fields that one side of a merge alone assigns have the values that this side gives them when
it is invoked on the same arguments : those of the source if their parameters are kept apart, those
of the extension if besides no parameter of theirs is renamed. -/
theorem merge_fields {n : NodeId} {host : Host} {args : List Value}
    {t₁ t₁' t₂ t₂' t₃ t₃' : Trail} {v x w : Value}
    (hs : source.Constructs F sas) (hx : extension.Constructs F xas) (honce : F.AssignsOnce)
    (hnames : Assignment.NamesApart (sas ++ xas)) (hF : F.Below t.next)
    (hhost : host.Respects F n) (hknown : F.Known n) (hargs : ∀ v ∈ args, v.Known F n)
    (hmerge : outcome (source.merge extension) t = (.ok result, t'))
    (hsource : outcome (source.invoke host args) t₁ = (.ok v, t₁')) (hle₁ : n ≤ t₁.next)
    (hextension : outcome (extension.invoke host args) t₂ = (.ok x, t₂')) (hle₂ : n ≤ t₂.next)
    (hresult : outcome (result.invoke host args) t₃ = (.ok w, t₃')) (hle₃ : n ≤ t₃.next) :
    let rs := Replacement.ofParams source.params extension.params
    (∀ a ∈ sas, Assignment.find? a.member xas = none → ¬ a.value.Clashes (.replacing rs) →
        v.SharesField F n a.member.name w) ∧
      ∀ a ∈ xas, Assignment.find? a.member sas = none → ¬ a.value.Clashes (.replacing rs) →
        (∀ p ∈ extension.params, a.value.Free p → Replacement.isOld rs (.param p) = false) →
          x.SharesField F n a.member.name w := by
  intro rs
  obtain ⟨hlen, hparams, k, ty, bs, hbody, hpairs, hmembers, hvalues⟩ :=
    merge_values hs hx honce hF hmerge
  have hJ : (Judgement.replacing rs).Renames F :=
    Replacement.ofParams_renames (fun p hp => hx.param hp) hs.params hlen
  have hbs := Assignment.nodup_names hnames hmembers hpairs
  constructor
  · intro a ha hfind hclash
    obtain ⟨b, hb, hmember, hbecomes⟩ := hvalues a (.inl ⟨ha, hfind⟩)
    refine invoke_sharesField hhost hknown hJ hs hbody
      (hs.nodup_names honce hnames fun _ => List.mem_append_left _) hbs ha hb hmember hbecomes
      hclash (fun y z hy hz => ?_) hargs hle₁ hle₃ hsource hresult
    rw [hparams]
    exact lookup_source hs hx hlen (F.free (hs.value ha).1 hy) hz args
  · intro a ha hfind hclash hkeeps
    obtain ⟨b, hb, hmember, hbecomes⟩ := hvalues a (.inr ⟨ha, hfind⟩)
    refine invoke_sharesField hhost hknown hJ hx hbody
      (hx.nodup_names honce hnames fun _ => List.mem_append_right _) hbs ha hb hmember hbecomes
      hclash (fun y z hy hz => ?_) hargs hle₂ hle₃ hextension hresult
    rw [hparams]
    exact lookup_extension hx (F.free (hx.value ha).1 hy) (fun hmem => hkeeps y hmem hy) hz args

/-- Two lambdas that share their first parameter, and of which the source projects through the
other one. -/
theorem merge_fields_shared :
    let a : Param := ⟨0, "a", .int⟩
    let b : Param := ⟨1, "b", .int⟩
    let c : Param := ⟨2, "c", .int⟩
    let q : Param := ⟨3, "q", .int⟩
    let items : Expr := .constant 4 (.sequence .list .int) (.sequence .list [.int 10])
    let g : Lambda := ⟨6, [q], .binary 5 .int .add (.param b) (.param q)⟩
    let projected : Expr :=
      .call 8 (.sequence .enumerable .int) .enumerableSelect none [items, .lambda 7 g]
    let sas : List Assignment := [⟨⟨"D", "x", .sequence .enumerable .int⟩, projected⟩]
    let source : Lambda := ⟨10, [a, b], .construct 9 (.object "D") [] sas⟩
    let xas : List Assignment := [⟨⟨"D", "y", .int⟩, .param a⟩]
    let extension : Lambda := ⟨12, [a, c], .construct 11 (.object "D") [] xas⟩
    let g' : Lambda := ⟨15, [q], .binary 14 .int .add (.param c) (.param q)⟩
    let projected' : Expr :=
      .call 17 (.sequence .enumerable .int) .enumerableSelect none [items, .lambda 16 g']
    let result : Lambda := ⟨19, [a, c], .construct 18 (.object "D") []
      [⟨⟨"D", "x", .sequence .enumerable .int⟩, projected'⟩, ⟨⟨"D", "y", .int⟩, .param a⟩]⟩
    let selected : Value := .sequence .enumerable [.int 12]
    let v : Value := .object 21 "D" [⟨"x", selected⟩]
    let x : Value := .object 23 "D" [⟨"y", .int 1⟩]
    let w : Value := .object 25 "D" [⟨"x", selected⟩, ⟨"y", .int 1⟩]
    outcome (source.merge extension) { next := 13 } = (.ok result, { next := 20 }) ∧
      outcome (source.invoke (.bare 2) [.int 1, .int 2]) { next := 20 } = (.ok v, { next := 22 }) ∧
      outcome (extension.invoke (.bare 2) [.int 1, .int 2]) { next := 22 } =
        (.ok x, { next := 24 }) ∧
      outcome (result.invoke (.bare 2) [.int 1, .int 2]) { next := 24 } = (.ok w, { next := 26 }) ∧
      ∃ F, v.SharesField F 13 "x" w ∧ x.SharesField F 13 "y" w := by
  intro a b c q items g projected sas source xas extension g' projected' result selected v x w
  let P : Forest := .ofLists [.param b, .param q, items, g.body, .lambda 7 g, projected] [g]
    (by decide) (by decide) (by simp [Expr.parts, items, g, projected])
    (by simp [Expr.fn?, items, g, projected]) (by simp [g]) (by simp)
  let Q : Forest := .ofLists [.param a] [] (by simp) (by simp) (by simp [Expr.parts])
    (by simp [Expr.fn?]) (by simp) (by simp)
  let F : Forest := .ofLists [.param a, .param b, .param c, .param q, items, g.body, .lambda 7 g,
      projected, source.body, extension.body] [g, source, extension] (by decide) (by decide)
    (by simp [Expr.parts, items, g, projected, source, extension, sas, xas])
    (by simp [Expr.fn?, items, g, projected, source, extension]) (by simp [g, source, extension])
    (by simp)
  have hmerge : outcome (source.merge extension) { next := 13 } = (.ok result, { next := 20 }) :=
    rfl
  have hv : outcome (source.invoke (.bare 2) [.int 1, .int 2]) { next := 20 } =
    (.ok v, { next := 22 }) := rfl
  have hx : outcome (extension.invoke (.bare 2) [.int 1, .int 2]) { next := 22 } =
    (.ok x, { next := 24 }) := rfl
  have hw : outcome (result.invoke (.bare 2) [.int 1, .int 2]) { next := 24 } =
    (.ok w, { next := 26 }) := rfl
  have param (y : Param) : (Expr.param y).FirstOrder := .leaf rfl rfl
  have hselect : projected.FirstOrder :=
    .select (.inl rfl) (.leaf rfl rfl) rfl (.node rfl (by simp [Expr.parts, g, param]))
  have hsource : source.Constructs F sas :=
    ⟨by simp [F, Forest.ofLists], by decide, ⟨_, _, rfl⟩,
      .node rfl (by simpa [Expr.parts, source, sas] using hselect), rfl⟩
  have hextension : extension.Constructs F xas :=
    ⟨by simp [F, Forest.ofLists], by decide, ⟨_, _, rfl⟩,
      .node rfl (by simpa [Expr.parts, extension, xas] using param a), rfl⟩
  have honce : F.AssignsOnce := by
    intro i ty as bs h
    obtain ⟨-, -, -, rfl⟩ | ⟨-, -, -, rfl⟩ : _ ∨ _ := by
      simpa [F, Forest.ofLists, source, extension, items, g, projected] using h
    · exact List.pairwise_singleton ..
    · exact List.pairwise_singleton ..
  have hknown : F.Known 13 := by
    intro i ty u h
    obtain ⟨-, -, rfl⟩ : i = 4 ∧ ty = _ ∧ u = _ := by
      simpa [F, Forest.ofLists, source, extension, items, g, projected] using h
    exact .sequence (.cons (.int 10) .nil)
  have hargs : ∀ u ∈ [Value.int 1, Value.int 2], u.Known F 13 := by
    intro u hu
    rcases List.mem_pair.1 hu with rfl | rfl
    · exact .int 1
    · exact .int 2
  -- the new parameter is in neither of the two values
  have hselected : ¬ projected.Clashes (.replacing [⟨.param b, .param c⟩]) :=
    P.not_clashes_of_fresh (by simp [P, Forest.ofLists, items, g, projected, b, c, q])
      (by simp [P, Forest.ofLists])
  have hkept : ¬ (Expr.param a).Clashes (.replacing [⟨.param b, .param c⟩]) :=
    Q.not_clashes_of_fresh (by simp [Q, Forest.ofLists, a, c]) (List.mem_singleton_self _)
  have hnames : Assignment.NamesApart (sas ++ xas) := by
    simp [Assignment.NamesApart, sas, xas]
  obtain ⟨hfields, hfields'⟩ := merge_fields hsource hextension honce hnames
    (Forest.below_ofLists (by decide) (by decide)) (Host.bare_respects 2) hknown hargs hmerge hv
    (by decide) hx (by decide) hw (by decide)
  refine ⟨hmerge, hv, hx, hw, F, hfields _ (List.mem_singleton_self _) rfl hselected,
    hfields' _ (List.mem_singleton_self _) rfl hkept fun p _ hfree => ?_⟩
  rw [Expr.free_param.1 hfree]
  rfl

/-- The renaming does not look at binders and runs over the values of the extension as well : a
projection of the source that binds a parameter of the extension, one of the extension that binds a
parameter of the source, and a parameter that stands at different places on the two sides. -/
theorem merge_fields_clash :
    let a : Param := ⟨0, "a", .int⟩
    let b : Param := ⟨1, "b", .int⟩
    let c : Param := ⟨2, "c", .int⟩
    let items : Expr := .constant 3 (.sequence .list .int) (.sequence .list [.int 10])
    let sum : Expr := .binary 4 .int .add (.param a) (.param c)
    let projected (id : NodeId) (y : Param) : Expr :=
      .call id (.sequence .enumerable .int) .enumerableSelect none
        [items, .lambda (id + 1) ⟨id + 2, [y], sum⟩]
    let source : Lambda := ⟨9, [a, b], .construct 8 (.object "D") []
      [⟨⟨"D", "x", .sequence .enumerable .int⟩, projected 5 c⟩]⟩
    let extension : Lambda := ⟨14, [c, a], .construct 13 (.object "D") []
      [⟨⟨"D", "y", .sequence .enumerable .int⟩, projected 10 a⟩, ⟨⟨"D", "z", .int⟩, .param a⟩]⟩
    ∃ result v x w t t₁ t₂ t₃, outcome (source.merge extension) { next := 15 } = (.ok result, t) ∧
      outcome (source.invoke (.bare 2) [.int 1, .int 2]) t = (.ok v, t₁) ∧
      outcome (extension.invoke (.bare 2) [.int 1, .int 2]) t₁ = (.ok x, t₂) ∧
      outcome (result.invoke (.bare 2) [.int 1, .int 2]) t₂ = (.ok w, t₃) ∧
      v.field "x" = .ok (.sequence .enumerable [.int 11]) ∧
      w.field "x" = .ok (.sequence .enumerable [.int 20]) ∧
      x.field "y" = .ok (.sequence .enumerable [.int 11]) ∧
      w.field "y" = .ok (.sequence .enumerable [.int 20]) ∧
      x.field "z" = .ok (.int 2) ∧ w.field "z" = .ok (.int 1) := by
  intro a b c items sum projected source extension
  let doubled (id : NodeId) : Expr :=
    .call id (.sequence .enumerable .int) .enumerableSelect none
      [items, .lambda (id - 1) ⟨id - 2, [c], .binary (id - 3) .int .add (.param c) (.param c)⟩]
  let result : Lambda := ⟨25, [c, a], .construct 24 (.object "D") []
    [⟨⟨"D", "x", .sequence .enumerable .int⟩, doubled 19⟩,
      ⟨⟨"D", "y", .sequence .enumerable .int⟩, doubled 23⟩, ⟨⟨"D", "z", .int⟩, .param c⟩]⟩
  let v : Value := .object 27 "D" [⟨"x", .sequence .enumerable [.int 11]⟩]
  let x : Value := .object 29 "D" [⟨"y", .sequence .enumerable [.int 11]⟩, ⟨"z", .int 2⟩]
  let w : Value := .object 31 "D" [⟨"x", .sequence .enumerable [.int 20]⟩,
    ⟨"y", .sequence .enumerable [.int 20]⟩, ⟨"z", .int 1⟩]
  have hmerge : outcome (source.merge extension) { next := 15 } = (.ok result, { next := 26 }) :=
    Prod.ext rfl rfl
  have hv : outcome (source.invoke (.bare 2) [.int 1, .int 2]) { next := 26 } =
    (.ok v, { next := 28 }) := rfl
  have hx : outcome (extension.invoke (.bare 2) [.int 1, .int 2]) { next := 28 } =
    (.ok x, { next := 30 }) := rfl
  have hw : outcome (result.invoke (.bare 2) [.int 1, .int 2]) { next := 30 } =
    (.ok w, { next := 32 }) := rfl
  exact ⟨result, v, x, w, _, _, _, _, hmerge, hv, hx, hw, rfl, rfl, rfl, rfl, rfl, rfl⟩

end

end Lambda

end ObjectMapping
