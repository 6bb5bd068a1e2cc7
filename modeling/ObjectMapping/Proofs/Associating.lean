import ObjectMapping.Proofs.Keeping

/-!
# Merging three lambdas

`Expr.relabel` renames the parameters of a tree and forgets the identities of all nodes that are
made of others, so that trees which are the same but for these have the same relabelled tree
(`Expr.SameTree`). What a merge makes is known up to that : it is the one tree laid over the other
(`Expr.overlay`), which is a function, unlike the run that makes it (`Lambda.Plain.merge`).

Laying trees over one another is associative where the trees agree on what is a construction
(`Expr.Agrees`). `Lambda.merge_assoc` says so of merges, where the parameter of the first lambda is
renamed twice on the one side and once on the other.
-/

namespace ObjectMapping

open RunM

/-! ## Relabelled trees -/

mutual

/-- The tree with its parameters renamed, and without the identities of nodes made of others. -/
def Expr.relabel (σ : Param → Param) : Expr → Expr
  | .param p => .param (σ p)
  | .constant id ty v => .constant id ty v
  | .default id ty => .default id ty
  | .member _ o m => .member 0 (o.relabel σ) m
  | .unary _ ty op a => .unary 0 ty op (a.relabel σ)
  | .binary _ ty op a b => .binary 0 ty op (a.relabel σ) (b.relabel σ)
  | .conditional _ ty a b c => .conditional 0 ty (a.relabel σ) (b.relabel σ) (c.relabel σ)
  | .call _ ty op receiver arguments =>
    .call 0 ty op (Expr.relabelOption σ receiver) (Expr.relabelList σ arguments)
  | .lambda _ f => .lambda 0 (f.relabel σ)
  | .quote _ f => .quote 0 (f.relabel σ)
  | .construct _ ty arguments assignments =>
    .construct 0 ty (Assignment.relabelList σ arguments) (Assignment.relabelList σ assignments)
  | .previous _ ty fallback => .previous 0 ty (Expr.relabelOption σ fallback)
termination_by structural e => e

/-- The relabelled tree of an expression that there may be. -/
def Expr.relabelOption (σ : Param → Param) : Option Expr → Option Expr
  | none => none
  | some e => some (e.relabel σ)
termination_by structural e => e

/-- The relabelled trees of expressions. -/
def Expr.relabelList (σ : Param → Param) : List Expr → List Expr
  | [] => []
  | e :: es => e.relabel σ :: Expr.relabelList σ es
termination_by structural es => es

/-- The assignments of the relabelled trees. -/
def Assignment.relabelList (σ : Param → Param) : List Assignment → List Assignment
  | [] => []
  | ⟨m, e⟩ :: as => ⟨m, e.relabel σ⟩ :: Assignment.relabelList σ as
termination_by structural as => as

/-- The lambda with its parameters renamed. -/
def Lambda.relabel (σ : Param → Param) : Lambda → Lambda
  | ⟨_, ps, e⟩ => ⟨0, ps.map σ, e.relabel σ⟩
termination_by structural f => f

end

/-- The assignment of the relabelled tree. -/
def Assignment.relabel (σ : Param → Param) (a : Assignment) : Assignment :=
  ⟨a.member, a.value.relabel σ⟩

/-- The trees are the same up to the identities of nodes made of others : they have the same members
in the same order, the same constructors, the same constants and the same parameters. -/
def Expr.SameTree (e e' : Expr) : Prop :=
  e.relabel (fun p => p) = e'.relabel fun p => p

section

variable {σ τ : Param → Param}

theorem Expr.relabelOption_eq : ∀ o : Option Expr, relabelOption σ o = o.map (relabel σ)
  | none => rfl
  | some _ => rfl

theorem Expr.relabelList_eq : ∀ es : List Expr, relabelList σ es = es.map (relabel σ)
  | [] => rfl
  | _ :: es => congrArg _ (relabelList_eq es)

theorem Assignment.relabelList_eq : ∀ as : List Assignment,
    relabelList σ as = as.map (relabel σ)
  | [] => rfl
  | ⟨_, _⟩ :: as => congrArg _ (relabelList_eq as)

theorem Lambda.relabel_eq (f : Lambda) : f.relabel σ = ⟨0, f.params.map σ, f.body.relabel σ⟩ := by
  cases f; rfl

theorem Expr.isConstruct_relabel (e : Expr) : (e.relabel σ).isConstruct = e.isConstruct := by
  cases e <;> rfl

theorem Expr.param?_relabel (e : Expr) : (e.relabel σ).param? = e.param?.map σ := by
  cases e <;> rfl

theorem Expr.fn?_relabel (e : Expr) : (e.relabel σ).fn? = e.fn?.map (Lambda.relabel σ) := by
  cases e <;> rfl

/-- A relabelled node is the node made anew over its relabelled parts. -/
theorem Expr.madeOver_relabel {e : Expr} (hparam : e.param? = none) (hfn : e.fn? = none) :
    e.MadeOver 0 (e.parts.map (relabel σ)) (e.relabel σ) := by
  cases e with
  | param => cases hparam
  | lambda | quote => cases hfn
  | constant | default | member | unary | binary | conditional => constructor
  | call =>
    rw [relabel, relabelOption_eq, relabelList_eq, parts, List.map_append, ← Option.toList_map]
    exact .call (by rw [Option.toList_map, List.length_map]) (List.length_map _)
  | construct =>
    have values (as : List Assignment) : (as.map (·.value)).map (relabel σ) =
        (as.map (Assignment.relabel σ)).map (·.value) := by
      rw [List.map_map, List.map_map]
      rfl
    rw [relabel, Assignment.relabelList_eq, Assignment.relabelList_eq, parts, List.map_append,
      values, values]
    exact .construct (List.map_map ..) (List.map_map ..)
  | previous =>
    rw [relabel, relabelOption_eq, parts, ← Option.toList_map]
    exact .previous (by rw [Option.toList_map, List.length_map])

/-- A relabelled node is the node over its relabelled lambda. -/
theorem Expr.relabel_eq_withFn {e : Expr} {f : Lambda} (hfn : e.fn? = some f) :
    e.relabel σ = e.withFn 0 (f.relabel σ) := by
  cases e <;> cases hfn <;> rfl

/-- Assignments to the same members have the same relabelled trees if their values have. -/
theorem Assignment.relabel_eq_of_values {as bs : List Assignment}
    (hmembers : bs.map (·.member) = as.map (·.member))
    (hvalues : List.Forall₂ (fun e e' => e'.relabel σ = e.relabel τ) (as.map (·.value))
      (bs.map (·.value))) : bs.map (relabel σ) = as.map (relabel τ) := by
  refine map_eq_map_of_forall₂ ((forall₂_assignments hmembers hvalues).flip.imp fun b a h => ?_)
  rw [relabel, relabel, h.1, h.2]

/-- What a visit makes of a tree is relabelled to what the tree itself is, if this is so of all that
is put in and of the parameters that are entered. -/
theorem Expr.Becomes.relabel_eq {J : Judgement} (hstands : ∀ e, ¬ J.stands e)
    (hputs : ∀ {e e'}, J.puts e e' → e'.relabel σ = e.relabel τ)
    (henters : ∀ {p}, J.enters (.param p) → σ p = τ p) {e e' : Expr} (h : e.Becomes J e') :
    e'.relabel σ = e.relabel τ := by
  have params {ps qs : List Param} (h : List.Forall₂ (Param.Becomes J) ps qs) :
      qs.map σ = ps.map τ := by
    refine map_eq_map_of_forall₂ (h.flip.imp fun q p h => ?_)
    rcases h with h | ⟨h | h, rfl⟩
    · exact Expr.param.inj (hputs h)
    · exact henters h
    · exact absurd h (hstands _)
  induction e using Expr.byPart generalizing e' with
  | h e ihpart ihfn =>
    cases h with
    | put h => exact hputs h
    | standIn h => exact absurd h (hstands _)
    | stay h => exact absurd h (hstands _)
    | enter he hr =>
      match hparam : e.param?, hf : e.fn? with
      | some p, _ =>
        obtain rfl := eq_of_param? hparam
        cases hr
        exact congrArg Expr.param (henters he)
      | none, none =>
        have hmade := hr.madeOver hf
        have hmade' := madeOver_relabel (σ := σ) (hr.param?_eq.trans hparam) hmade.fn?_eq
        have hparts : e'.parts.map (relabel σ) = e.parts.map (relabel τ) :=
          map_eq_map_of_forall₂ (forall₂_flip_of_mem hr.parts_becomes fun d hd _ _ => ihpart d hd)
        rw [(hmade.trans hmade').eq_withParts, hparts, (madeOver_relabel hparam hf).eq_withParts]
      | none, some f =>
        obtain ⟨i, f', hf', rfl⟩ := hr.withFn hf
        rw [relabel_eq_withFn hf, relabel_eq_withFn (fn?_withFn hf), withFn_withFn hf,
          Lambda.relabel_eq, Lambda.relabel_eq, params hf'.params, ihfn f hf hf'.body]

/-- Renamings that agree on the parameters of a tree relabel it alike. -/
theorem Expr.relabel_congr {e : Expr} (h : e.All fun d => ∀ p, d = .param p → σ p = τ p) :
    e.relabel σ = e.relabel τ := by
  let J : Judgement := ⟨fun d => ∀ p, d = .param p → σ p = τ p, fun _ _ => False, fun _ => False⟩
  have hsame : e.Becomes (.replacing []) e :=
    .refl (fun _ => .inr (by simp [Judgement.replacing])) e
  have hbecomes : e.Becomes J e := by
    refine hsame.imp (fun _ hstands => hstands) (fun _ hputs => ?_) (fun he _ => he) h
    simp [Judgement.replacing] at hputs
  have henters {p : Param} (henters : J.enters (.param p)) : σ p = τ p := henters p rfl
  exact hbecomes.relabel_eq (fun _ => not_false) False.elim henters

/-- A tree that is rebuilt as it is stays the same tree. -/
theorem Expr.Becomes.relabel_of_replacing_nil {e e' : Expr} (h : e.Becomes (.replacing []) e') :
    e'.relabel σ = e.relabel σ :=
  h.relabel_eq (fun _ => not_false) (fun hputs => by simp [Judgement.replacing] at hputs)
    fun _ => rfl

/-- The parameter that comes to stand in the place of another one. -/
def Param.renamed (p q y : Param) : Param :=
  if y = p then q else y

theorem Param.renamed_of_ne {p q y : Param} (h : y ≠ p) : p.renamed q y = y :=
  if_neg h

/-- Renaming in two steps comes to renaming in one, but for the parameter in between. -/
theorem Param.renamed_renamed {p q r y : Param} (h : y ≠ q) :
    q.renamed r (p.renamed q y) = p.renamed r y := by
  by_cases hy : y = p
  · simp [renamed, hy]
  · rw [renamed_of_ne hy, renamed_of_ne hy, renamed_of_ne h]

/-- Where a parameter is not, renaming it after another one changes nothing. -/
theorem Param.renamed_of_renamed {p q r y : Param} (h : y ≠ p) :
    p.renamed r (q.renamed r y) = q.renamed r y := by
  by_cases hy : y = q
  · by_cases hr : r = p <;> simp [renamed, hy, hr]
  · rw [renamed_of_ne hy, renamed_of_ne h]

/-- Renamings that agree on all but a parameter that does not occur in a tree relabel it alike. -/
theorem Expr.relabel_congr_of_ne {z : Param} {e : Expr} (h : (Expr.param z).occursIn e = false)
    (hne : ∀ y, y ≠ z → σ y = τ y) : e.relabel σ = e.relabel τ :=
  relabel_congr ((all_ne h).imp fun _ hd y hy => hne y fun hyz => hd (hyz ▸ hy))

/-- Renaming a parameter of a forest does to a tree what it does to its parameters. -/
theorem Expr.Becomes.relabel_of_ofParams {F : Forest} {p q : Param} (hp : F.nodes (.param p))
    (hq : F.nodes (.param q)) {e e' : Expr}
    (h : e.Becomes (.replacing (Replacement.ofParams [p] [q])) e') :
    e'.relabel σ = e.relabel (σ ∘ p.renamed q) := by
  refine h.relabel_eq (fun _ => not_false) (fun hputs => ?_) fun {y} henters => ?_
  · obtain ⟨r, hr, rfl, rfl⟩ := hputs
    obtain ⟨_, hp', _, hq', rfl⟩ := Replacement.mem_ofParams hr
    rw [List.mem_singleton.1 hp', List.mem_singleton.1 hq']
    simp [relabel, Param.renamed]
  · by_cases hyp : y = p
    · subst hyp
      by_cases hid : y.id = q.id
      · simp [Param.renamed, F.param_eq hp hq hid]
      · exact absurd rfl (henters ⟨.param y, .param q⟩ (by simp [Replacement.ofParams, hid]))
    · simp [Param.renamed, hyp]

end

/-! ## Trees laid over trees -/

mutual

/-- The extension laid over the source, where both are constructions, and else the extension. -/
def Expr.overlay : Expr → Expr → Expr
  | .construct _ _ _ source, .construct _ ty arguments extension =>
    .construct 0 ty arguments (Assignment.overlayList extension source ++
      extension.filter fun a => (Assignment.find? a.member source).isNone)
  | _, extension => extension
termination_by structural source => source

/-- The source's assignments, each under the extension's assignment to the same member. -/
def Assignment.overlayList (extension : List Assignment) : List Assignment → List Assignment
  | [] => []
  | ⟨m, v⟩ :: rest =>
    (match Assignment.find? m extension with
      | none => ⟨m, v⟩
      | some x => ⟨x.member, v.overlay x.value⟩) :: Assignment.overlayList extension rest
termination_by structural source => source

end

/-- An assignment of the source under the extension's assignment to the same member. -/
def Assignment.overlay (extension : List Assignment) (a : Assignment) : Assignment :=
  match find? a.member extension with
  | none => a
  | some x => ⟨x.member, a.value.overlay x.value⟩

theorem Assignment.overlayList_eq {extension : List Assignment} : ∀ source : List Assignment,
    overlayList extension source = source.map (overlay extension)
  | [] => rfl
  | ⟨_, _⟩ :: source => congrArg _ (overlayList_eq source)

theorem Expr.overlay_of_ne {s x : Expr} (h : (s.isConstruct && x.isConstruct) = false) :
    s.overlay x = x := by
  cases s <;> cases x <;> first | rfl | cases h

theorem Expr.isConstruct_overlay (s x : Expr) : (s.overlay x).isConstruct = x.isConstruct := by
  cases s <;> cases x <;> rfl

theorem Expr.overlay_of_not {s x : Expr} (h : x.isConstruct = false) : s.overlay x = x :=
  overlay_of_ne (by rw [h, Bool.and_false])

section

variable {σ τ : Param → Param} {m : Member} {a : Assignment} {as bs : List Assignment}

theorem Assignment.key_overlay : (overlay bs a).key = a.key := by
  rw [overlay]
  split
  · rfl
  · rename_i x hfind
    exact (key_eq_of_find? hfind :)

/-- Looking up finds the image of what it finds, if members stay what they are known by. -/
theorem Assignment.find?_map {f : Assignment → Assignment} (hf : ∀ a, (f a).key = a.key) :
    find? m (as.map f) = (find? m as).map f := by
  have hsame : ((fun a => a.member.same m) ∘ f) = fun a : Assignment => a.member.same m :=
    funext fun a => same_eq_of_key (hf a) m
  rw [find?, find?, List.find?_map, hsame]

theorem Assignment.find?_relabel : find? m (as.map (relabel σ)) = (find? m as).map (relabel σ) :=
  find?_map fun _ => rfl

/-- Whether a member is assigned depends on what it is known by. -/
theorem Assignment.filter_map_of_key {f : Assignment → Assignment} (hf : ∀ a, (f a).key = a.key) :
    (as.map f).filter (fun a => (find? a.member bs).isNone) =
      (as.filter fun a => (find? a.member bs).isNone).map f := by
  have hnone (a : Assignment) : (find? (f a).member bs).isNone = (find? a.member bs).isNone := by
    obtain ⟨howner, hname⟩ := Prod.mk.inj (hf a)
    simp only [find?, Member.same, howner, hname]
  rw [List.filter_map]
  simp only [Function.comp_def, hnone]

theorem Assignment.isNone_find?_map {f : Assignment → Assignment} (hf : ∀ a, (f a).key = a.key) :
    (find? m (as.map f)).isNone = (find? m as).isNone := by
  rw [find?_map hf, Option.isNone_map]

/-- What becomes of an assignment of the source that an extension is laid over. -/
theorem Assignment.Overlaid.relabel_eq {extension : List Assignment} {a r : Assignment}
    (ha : a.value.outermost Expr.isPrevious = [])
    (hx : ∀ x ∈ extension, x.value.outermost Expr.isPrevious = [])
    (ih : ∀ x v, find? a.member extension = some x →
      a.value.Overlaid (.replacing []) ((Judgement.replacing []).overriding a.value) x.value v →
      v.relabel σ = (a.value.relabel σ).overlay (x.value.relabel σ))
    (h : Assignment.Overlaid (.replacing []) (a, find? a.member extension) r) :
    r.relabel σ = overlay (extension.map (relabel σ)) (a.relabel σ) := by
  have hlookup : find? (a.relabel σ).member (extension.map (relabel σ)) =
      (find? a.member extension).map (relabel σ) := find?_relabel
  rw [overlay, hlookup]
  generalize hfind : find? a.member extension = o at h ih
  cases h with
  | kept h => exact congrArg (Assignment.mk _) h.relabel_of_replacing_nil
  | merged hv hxv h => exact congrArg (Assignment.mk _) (ih _ _ rfl h)
  | @replaced m v r x hne h =>
    have hover : (v.relabel σ).overlay (x.value.relabel σ) = x.value.relabel σ :=
      Expr.overlay_of_ne (by rw [Expr.isConstruct_relabel, Expr.isConstruct_relabel, hne])
    refine congrArg (Assignment.mk _) (Eq.trans ?_ hover.symm)
    exact (h.replacing_of_overriding (hx x (mem_of_find? hfind))).relabel_of_replacing_nil

/-- What is laid over a source is, once it is relabelled, the one tree laid over the other, if there
are no placeholders. -/
theorem Expr.Overlaid.relabel_eq {A : Judgement} (hA : ∀ {d d' : Expr},
      d.outermost isPrevious = [] → d.Becomes A d' → d.Becomes (.replacing []) d')
    {s x v : Expr} (hs : s.outermost isPrevious = []) (hx : x.outermost isPrevious = [])
    (h : s.Overlaid (.replacing []) A x v) :
    v.relabel σ = (s.relabel σ).overlay (x.relabel σ) := by
  induction s using Expr.byParts generalizing A x v with
  | construct i sty sargs source iha ihb =>
    cases h with
    | @construct _ _ j k _ ty _ eargs args _ extension kept added hmembers hargs hkept hadded _ =>
    have hvalue {a : Assignment} (ha : a ∈ source) : a.value.outermost isPrevious = [] :=
      outermost_part hs (List.mem_append_right _ (List.mem_map_of_mem ha))
    have hxvalue {a : Assignment} (ha : a ∈ extension) : a.value.outermost isPrevious = [] :=
      outermost_part hx (List.mem_append_right _ (List.mem_map_of_mem ha))
    have hargs' : args.map (Assignment.relabel σ) = eargs.map (Assignment.relabel σ) := by
      refine Assignment.relabel_eq_of_values hmembers (forall₂_imp_of_mem hargs fun d hd d' h => ?_)
      exact (hA (outermost_part hx (List.mem_append_left _ hd)) h).relabel_of_replacing_nil
    have hkept' : kept.map (Assignment.relabel σ) =
        (source.map (Assignment.relabel σ)).map
          (Assignment.overlay (extension.map (Assignment.relabel σ))) := by
      rw [List.forall₂_map_left_iff] at hkept
      rw [List.map_map]
      refine map_eq_map_of_forall₂ (forall₂_flip_of_mem hkept fun a ha r _ h => ?_)
      refine h.relabel_eq (hvalue ha) (fun x hx => hxvalue hx) fun x v hfind h => ?_
      exact ihb a ha (fun hd h => h.replacing_of_overriding hd) (hvalue ha)
        (hxvalue (Assignment.mem_of_find? hfind)) h
    have hadded' : added.map (Assignment.relabel σ) =
        (extension.map (Assignment.relabel σ)).filter fun a =>
          (Assignment.find? a.member (source.map (Assignment.relabel σ))).isNone := by
      have hnone (a : Assignment) :
          (Assignment.find? a.member (source.map (Assignment.relabel σ))).isNone =
            (Assignment.find? a.member source).isNone := Assignment.isNone_find?_map fun _ => rfl
      simp only [hnone]
      rw [Assignment.filter_map_of_key (f := Assignment.relabel σ) fun _ => rfl]
      refine map_eq_map_of_forall₂ (forall₂_flip_of_mem hadded fun a ha r _ h => ?_)
      have hsame := h.2.replacing_of_filling (hxvalue (List.mem_of_mem_filter ha))
      rw [Assignment.relabel, Assignment.relabel, h.1, hsame.relabel_of_replacing_nil]
    simp only [relabel, overlay, Assignment.relabelList_eq, Assignment.overlayList_eq,
      List.map_append, hargs', hkept', hadded']
  | _ => cases h

/-! ## Trees that agree -/

/-- Where both trees assign a value at the end of a path of members, both or neither of the two
values is a construction. -/
def Expr.Agrees (s x : Expr) : Prop :=
  ∀ path v w, s.at? path = some v → x.at? path = some w → v.isConstruct = w.isConstruct

theorem Expr.Agrees.isConstruct_eq {s x : Expr} (h : s.Agrees x) : s.isConstruct = x.isConstruct :=
  h [] s x rfl rfl

/-- What two trees that agree assign to a member agrees. -/
theorem Expr.Agrees.value {i j : NodeId} {sty ty : Ty} {sargs eargs source extension :
      List Assignment}
    (h : (Expr.construct i sty sargs source).Agrees (.construct j ty eargs extension))
    {a x : Assignment} (ha : Assignment.find? m source = some a)
    (hx : Assignment.find? m extension = some x) : a.value.Agrees x.value := fun path v w hv hw =>
  h (m :: path) v w (Expr.at?_construct ha path ▸ hv) (Expr.at?_construct hx path ▸ hw)

/-- Constructions agree if what they assign to the same members does. -/
theorem Expr.Agrees.construct {i j : NodeId} {sty ty : Ty} {sargs eargs source extension :
      List Assignment} (h : ∀ a ∈ source, ∀ x ∈ extension, a.key = x.key → a.value.Agrees x.value) :
    (Expr.construct i sty sargs source).Agrees (.construct j ty eargs extension) := by
  rintro (_ | ⟨m, path⟩) v w hv hw
  · obtain rfl := Option.some.inj hv
    obtain rfl := Option.some.inj hw
    rfl
  · rw [at?] at hv hw
    split at hv
    · split at hw
      · rename_i a ha _ x hx
        have hkey := (Assignment.key_eq_of_find? ha).trans (Assignment.key_eq_of_find? hx).symm
        exact h a (Assignment.mem_of_find? ha) x (Assignment.mem_of_find? hx) hkey path v w hv hw
      · cases hw
    · cases hv

theorem Expr.agrees_param (p q : Param) : (Expr.param p).Agrees (.param q) := by
  rintro (_ | ⟨m, path⟩) v w hv hw
  · obtain rfl := Option.some.inj hv
    obtain rfl := Option.some.inj hw
    rfl
  · cases hv

theorem Expr.at?_relabel {e : Expr} : ∀ path : List Member,
    (e.relabel σ).at? path = (e.at? path).map (relabel σ) := by
  intro path
  induction path generalizing e with
  | nil => rfl
  | cons m path ih =>
    cases e with
    | construct i ty as bs =>
      rw [relabel, at?, at?, Assignment.relabelList_eq, Assignment.find?_relabel]
      cases Assignment.find? m bs with
      | none => rfl
      | some a => exact ih
    | _ => rfl

/-- Trees that agree still do once they are relabelled. -/
theorem Expr.Agrees.relabel {s x : Expr} (h : s.Agrees x) :
    (s.relabel σ).Agrees (x.relabel τ) := by
  intro path v w hv hw
  rw [at?_relabel] at hv hw
  obtain ⟨v, hv', rfl⟩ := Option.map_eq_some_iff.1 hv
  obtain ⟨w, hw', rfl⟩ := Option.map_eq_some_iff.1 hw
  rw [isConstruct_relabel, isConstruct_relabel, h path v w hv' hw']

/-- No construction that a path of members leads to assigns a member twice. -/
def Expr.AssignsOnce (e : Expr) : Prop :=
  ∀ path i ty as bs, e.at? path = some (.construct i ty as bs) → (bs.map Assignment.key).Nodup

theorem Assignment.find?_of_mem (h : (as.map key).Nodup) (ha : a ∈ as) :
    find? a.member as = some a := by
  cases hfind : find? a.member as with
  | none =>
    have hnot := List.find?_eq_none.1 (hfind : as.find? _ = none) a ha
    simp at hnot
  | some b =>
    have hkey : b.key = a.key := key_eq_of_find? hfind
    rw [List.inj_on_of_nodup_map h (mem_of_find? hfind) ha hkey]

theorem Expr.AssignsOnce.value {i : NodeId} {ty : Ty} (h : (Expr.construct i ty as bs).AssignsOnce)
    (ha : a ∈ bs) : a.value.AssignsOnce := fun path j uty cs ds hat =>
  h (a.member :: path) j uty cs ds
    (Expr.at?_construct (Assignment.find?_of_mem (h [] i ty as bs rfl) ha) path ▸ hat)

theorem Expr.AssignsOnce.relabel {e : Expr} (h : e.AssignsOnce) : (e.relabel σ).AssignsOnce := by
  intro path i ty as bs hat
  rw [at?_relabel] at hat
  obtain ⟨v, hv, heq⟩ := Option.map_eq_some_iff.1 hat
  cases v with
  | construct j uty cs ds =>
    rw [Expr.relabel, Assignment.relabelList_eq, Assignment.relabelList_eq] at heq
    obtain ⟨-, -, -, rfl⟩ := Expr.construct.inj heq
    rw [List.map_map]
    exact h path j uty cs ds hv
  | _ => cases heq

theorem Expr.WellFormed.assignsOnce {e : Expr} (h : e.WellFormed) : e.AssignsOnce := by
  intro path i ty as bs hat
  induction path generalizing e with
  | nil =>
    obtain rfl := Option.some.inj hat
    exact (wellFormed_construct.1 h).1.2
  | cons m path ih =>
    cases e with
    | construct j uty cs ds =>
      rw [at?] at hat
      split at hat
      · rename_i a hfind
        exact ih (h.part (List.mem_append_right _
          (List.mem_map_of_mem (Assignment.mem_of_find? hfind)))) hat
      · cases hat
    | _ => cases hat

/-! ## Three trees -/

/-- What is looked up among the assignments to members that others do not assign is not looked for
among the others. -/
theorem Assignment.find?_filter_of_none (h : find? m as = none) :
    find? m (bs.filter fun b => (find? b.member as).isNone) = find? m bs := by
  have hsame (b : Assignment) :
      decide ((find? b.member as).isNone = true ∧ b.member.same m = true) = b.member.same m := by
    cases hb : b.member.same m with
    | false => simp
    | true =>
      have hself : find? m [b] = some b := by simp [find?, hb]
      simp [find?_member hself as, h]
  rw [find?, find?, List.find?_filter]
  simp only [hsame]

/-- What is laid under two extensions in turn is laid under the one over the other. -/
theorem Assignment.overlay_overlay {X Y : List Assignment} {a : Assignment}
    (ih : ∀ x y, find? a.member X = some x → find? a.member Y = some y →
      (a.value.overlay x.value).overlay y.value = a.value.overlay (x.value.overlay y.value)) :
    overlay Y (overlay X a) =
      overlay (X.map (overlay Y) ++ Y.filter fun b => (find? b.member X).isNone) a := by
  have happend : find? a.member (X.map (overlay Y) ++
      Y.filter fun b => (find? b.member X).isNone) = ((find? a.member X).map (overlay Y)).or
        (find? a.member (Y.filter fun b => (find? b.member X).isNone)) := by
    rw [← find?_map fun _ => key_overlay, find?, List.find?_append]
    rfl
  rw [overlay.eq_1 X a, overlay.eq_1 _ a, happend]
  cases hX : find? a.member X with
  | none =>
    simp only [Option.map_none, Option.none_or, find?_filter_of_none hX]
    rfl
  | some x =>
    have hmember : find? x.member Y = find? a.member Y := find?_member hX Y
    simp only [Option.map_some, Option.some_or]
    rw [overlay, overlay, hmember]
    cases hY : find? a.member Y with
    | none => rfl
    | some y => exact congrArg (Assignment.mk _) (ih x y hX hY)

/-- The members that neither of two lists assigns. -/
theorem Assignment.filter_unassigned {S X Y : List Assignment} {f : Assignment → Assignment}
    (hf : ∀ a, (f a).key = a.key) :
    (Y.filter fun y => (find? y.member
      (S.map f ++ X.filter fun x => (find? x.member S).isNone)).isNone) =
      (Y.filter fun y => (find? y.member X).isNone).filter fun y => (find? y.member S).isNone := by
  rw [List.filter_filter]
  refine List.filter_congr fun y _ => ?_
  have happend : find? y.member (S.map f ++ X.filter fun x => (find? x.member S).isNone) =
      ((find? y.member S).map f).or
        (find? y.member (X.filter fun x => (find? x.member S).isNone)) := by
    rw [← find?_map hf, find?, List.find?_append]
    rfl
  rw [happend]
  cases hS : find? y.member S with
  | none => simp only [Option.map_none, Option.none_or, find?_filter_of_none hS]; rfl
  | some s => rfl

/-- Laying trees that agree over one another is associative. -/
theorem Expr.overlay_assoc {s x y : Expr} (honce : s.AssignsOnce) (hsx : s.Agrees x)
    (hsy : s.Agrees y) (hxy : x.Agrees y) :
    (s.overlay x).overlay y = s.overlay (x.overlay y) := by
  induction s using Expr.byParts generalizing x y with
  | construct i sty sargs source iha ihb =>
    cases x with
    | construct j xty xargs X =>
      cases y with
      | construct k ty args Y =>
        have hkept : (source.map (Assignment.overlay X)).map (Assignment.overlay Y) = source.map
            (Assignment.overlay (X.map (Assignment.overlay Y) ++
              Y.filter fun b => (Assignment.find? b.member X).isNone)) := by
          rw [List.map_map]
          refine List.map_congr_left fun a ha => Assignment.overlay_overlay fun x y hx hy => ?_
          have hself := Assignment.find?_of_mem (honce [] i sty sargs source rfl) ha
          exact ihb a ha (honce.value ha) (hsx.value hself hx) (hsy.value hself hy)
            (hxy.value hx hy)
        simp only [overlay, Assignment.overlayList_eq, List.map_append, List.filter_append, hkept,
          Assignment.filter_unassigned fun _ => Assignment.key_overlay,
          Assignment.filter_map_of_key (f := Assignment.overlay _) fun _ => Assignment.key_overlay,
          List.append_assoc]
      | _ => cases hsy.isConstruct_eq
    | _ => cases hsx.isConstruct_eq
  | _ =>
    -- none of the three is a construction
    have hy : y.isConstruct = false := hsy.isConstruct_eq.symm
    rw [overlay_of_not hy, overlay_of_not hy, overlay_of_not hy]

end

/-! ## Merging in turn -/

/-- A lambda of one parameter that constructs an object and holds no placeholders. -/
structure Lambda.Plain (F : Forest) (p : Param) (f : Lambda) : Prop where
  fn : F.fns f
  params : f.params = [p]
  constructs : f.body.isConstruct = true
  plain : f.body.outermost Expr.isPrevious = []
  formed : f.WellFormed

section

variable {F G : Forest} {p q r y : Param} {source extension a b c : Lambda} {t u : Trail}

theorem Lambda.Plain.of_le (h : a.Plain F p) (hFG : F.within Expr.Formed ≤ G) : a.Plain G p :=
  ⟨hFG.2 _ ⟨h.fn, h.formed.all⟩, h.params, h.constructs, h.plain, h.formed⟩

theorem Lambda.Plain.node (h : a.Plain F p) : F.nodes (.param p) :=
  F.param h.fn (by simp [h.params])

/-- Renaming a parameter that no lambda inside binds binds none that was not bound. -/
theorem Expr.Becomes.not_binds_of_ofParams {e e' : Expr} (hp : ¬ e.Binds p) (hy : ¬ e.Binds y)
    (h : e.Becomes (.replacing (Replacement.ofParams [p] [q])) e') : ¬ e'.Binds y := by
  rw [binds_iff, not_someFn_iff] at *
  refine h.all (fun _ hstands => ?_) (fun _ hputs => ?_) (fun he _ hr f' hf' hy' => ?_) (hp.and hy)
  · exact False.elim hstands
  · obtain ⟨r, hr, -, rfl⟩ := hputs
    obtain ⟨_, -, _, -, rfl⟩ := Replacement.mem_ofParams hr
    exact .leaf (fun f hf => nomatch hf) rfl
  · obtain ⟨f, hf, hbecomes⟩ := hr.fn?_becomes hf'
    obtain ⟨z, hz, hput | ⟨-, rfl⟩⟩ := forall₂_mem_right hbecomes.params hy'
    · obtain ⟨r, hr, hold, -⟩ := hput
      obtain ⟨_, hp', _, -, rfl⟩ := Replacement.mem_ofParams hr
      obtain rfl := (Expr.param.inj hold).trans (List.mem_singleton.1 hp')
      exact he.1 f hf hz
    · exact he.2 f hf hz

theorem Expr.outermost_constructorArguments {hit : Expr → Bool} {e : Expr}
    (h : e.outermost hit = []) {d : Assignment} (hd : d ∈ e.constructorArguments) :
    d.value.outermost hit = [] := by
  cases e with
  | construct => exact outermost_part h (List.mem_append_left _ (List.mem_map_of_mem hd))
  | _ => cases hd

/-- A parameter that occurs nowhere in a tree is not bound in it. -/
theorem Expr.not_binds_of_occursIn {e : Expr} (h : (Expr.param p).occursIn e = false) :
    ¬ e.Binds p := by
  intro hbinds
  rw [occursIn_eq_false_iff] at h
  induction hbinds with
  | here hf hp => simpa [same_refl] using (outermost_eq_nil_iff.1 ((outermost_fn h hf).1 _ hp)).1
  | part hd _ ih => exact ih (outermost_part h hd)
  | body hf _ ih => exact ih (outermost_fn h hf).2

/-- Two lambdas without placeholders are merged. What that makes is, once it is relabelled, the one
laid over the other with the parameter of the source renamed. -/
theorem Lambda.Plain.merge (hs : source.Plain F p) (hx : extension.Plain F q)
    (hF : F.Below t.next) (hsbinds : ¬ source.body.Binds p) (hxbinds : ¬ extension.body.Binds p) :
    ∃ result t' G, outcome (source.merge extension) t = (.ok result, t') ∧
      F.within Expr.Formed ≤ G ∧ G.Below t'.next ∧ result.Plain G q ∧
      (∀ y, ¬ source.body.Binds y → ¬ extension.body.Binds y → ¬ result.body.Binds y) ∧
      ∀ σ, result.body.relabel σ = (source.body.relabel (σ ∘ p.renamed q)).overlay
        (extension.body.relabel (σ ∘ p.renamed q)) := by
  have hbinds {e : Expr} (h : ¬ e.Binds p) : ∀ z ∈ source.params, ¬ e.Binds z := by
    rw [hs.params]
    exact fun z hz => List.mem_singleton.1 hz ▸ h
  obtain ⟨result, hresult⟩ := (outcome_merge_constructs hs.fn hx.fn hF hs.formed hx.formed
    (hbinds hsbinds) (hbinds hxbinds) hs.constructs hx.constructs
    (by rw [hs.params, hx.params]; rfl)).2 (Expr.not_unfilled_of_plain hx.plain)
  replace hresult : outcome (source.merge extension) t = (.ok result, _) := Prod.ext hresult rfl
  obtain ⟨-, hparams, merged, hover, hbecomes, G, hFG, hG, -, hfn⟩ :=
    outcome_merge (F := F.within Expr.Formed) ⟨hs.fn, hs.formed.all⟩ ⟨hx.fn, hx.formed.all⟩
      F.assignsOnce_formed (hF.of_le (F.within_le _)) hs.plain hresult
  rw [hs.params, hx.params] at hbecomes
  have hrelabel (σ : Param → Param) : result.body.relabel σ =
      (source.body.relabel (σ ∘ p.renamed q)).overlay
        (extension.body.relabel (σ ∘ p.renamed q)) := by
    rw [hbecomes.relabel_of_ofParams hs.node hx.node]
    exact hover.relabel_eq (fun _ h => Expr.becomes_keeping.1 h ▸ .refl
      (fun _ => .inr (by simp [Judgement.replacing])) _) hs.plain hx.plain
  refine ⟨result, _, G, hresult, hFG, hG, ⟨hfn, hparams.trans hx.params, ?_, ?_, ?_⟩, ?_, hrelabel⟩
  · rw [← Expr.isConstruct_relabel (σ := fun y => y), hrelabel, Expr.isConstruct_overlay,
      Expr.isConstruct_relabel, hx.constructs]
  · exact merge_plain hs.fn hx.fn hF hresult hs.plain fun _ =>
      Expr.outermost_constructorArguments hx.plain
  · exact ends_iff.1 (merge_ends hs.formed hx.formed) hresult
  · intro y hsy hxy
    rw [Expr.binds_iff] at hsbinds hxbinds hsy hxy
    refine hbecomes.not_binds_of_ofParams ?_ ?_
    · exact Expr.binds_iff.not.2 (hover.not_someFn (P := (p ∈ ·)) hsbinds hxbinds)
    · exact Expr.binds_iff.not.2 (hover.not_someFn (P := (y ∈ ·)) hsy hxy)

/-- Merging is associative. Three lambdas of one parameter each construct objects and hold no
placeholders, and their bodies agree on what is a construction. The parameters of the first two
occur in none of the other bodies and are not bound in their own. Then merging succeeds in either
order, and the two results are the same tree over the same parameter. -/
theorem Lambda.merge_assoc (ha : a.Plain F p) (hb : b.Plain F q) (hc : c.Plain F r)
    (hF : F.Below t.next) (hF' : F.Below u.next) (hqa : (Expr.param q).occursIn a.body = false)
    (hpb : (Expr.param p).occursIn b.body = false) (hpc : (Expr.param p).occursIn c.body = false)
    (hqc : (Expr.param q).occursIn c.body = false) (hap : ¬ a.body.Binds p)
    (hbq : ¬ b.body.Binds q) (hab : a.body.Agrees b.body) (hac : a.body.Agrees c.body)
    (hbc : b.body.Agrees c.body) :
    ∃ left right t' u', outcome (do (← a.merge b).merge c) t = (.ok left, t') ∧
      outcome (do a.merge (← b.merge c)) u = (.ok right, u') ∧
      left.params = [r] ∧ right.params = [r] ∧ left.body.SameTree right.body := by
  have not_binds {e : Expr} {z : Param} (h : (Expr.param z).occursIn e = false) : ¬ e.Binds z :=
    Expr.not_binds_of_occursIn h
  -- the first two, and then the third
  obtain ⟨ab, t₁, G, habrun, hFG, hG, habp, habbinds, habrelabel⟩ :=
    ha.merge hb hF hap (not_binds hpb)
  obtain ⟨left, t₂, _, hleftrun, -, -, hleft, -, hleftrelabel⟩ :=
    habp.merge (hc.of_le hFG) hG (habbinds q (not_binds hqa) hbq) (not_binds hqc)
  -- the last two, and then the first
  obtain ⟨bc, u₁, H, hbcrun, hFH, hH, hbcp, hbcbinds, hbcrelabel⟩ :=
    hb.merge hc hF' hbq (not_binds hqc)
  obtain ⟨right, u₂, _, hrightrun, -, -, hright, -, hrightrelabel⟩ :=
    (ha.of_le hFH).merge hbcp hH hap (hbcbinds p (not_binds hpb) (not_binds hpc))
  refine ⟨left, right, t₂, u₂, ?_, ?_, hleft.params, hright.params, ?_⟩
  · rw [outcome_bind_of_ok habrun, hleftrun]
  · rw [outcome_bind_of_ok hbcrun, hrightrun]
  · -- the renamings agree on each of the three
    let σ := p.renamed r
    let τ := p.renamed r ∘ q.renamed r
    have hA : a.body.relabel (q.renamed r ∘ p.renamed q) = a.body.relabel σ :=
      Expr.relabel_congr_of_ne hqa fun _ hy => Param.renamed_renamed hy
    have hB : b.body.relabel (q.renamed r ∘ p.renamed q) = b.body.relabel τ :=
      Expr.relabel_congr_of_ne hpb fun y hy => by
        simp only [τ, Function.comp_apply, Param.renamed_of_ne hy, Param.renamed_of_renamed hy]
    have hC : c.body.relabel (q.renamed r) = c.body.relabel τ :=
      Expr.relabel_congr_of_ne hpc fun _ hy => (Param.renamed_of_renamed hy).symm
    calc left.body.relabel (fun y => y)
      _ = (ab.body.relabel (q.renamed r)).overlay (c.body.relabel (q.renamed r)) := hleftrelabel _
      _ = ((a.body.relabel σ).overlay (b.body.relabel τ)).overlay (c.body.relabel τ) := by
        rw [habrelabel, hA, hB, hC]
      _ = (a.body.relabel σ).overlay ((b.body.relabel τ).overlay (c.body.relabel τ)) :=
        Expr.overlay_assoc ha.formed.2.assignsOnce.relabel hab.relabel hac.relabel hbc.relabel
      _ = (a.body.relabel σ).overlay (bc.body.relabel σ) := by rw [hbcrelabel]
      _ = right.body.relabel fun y => y := (hrightrelabel fun y => y).symm

/-- A member that all three assign with constructions, one that the last two assign, and one that
the first alone does. -/
theorem Lambda.merge_assoc_nested :
    let p : Param := ⟨0, "p", .int⟩
    let q : Param := ⟨1, "q", .int⟩
    let r : Param := ⟨2, "r", .int⟩
    let u : Member := ⟨"E", "u", .int⟩
    let v : Member := ⟨"E", "v", .int⟩
    let x : Member := ⟨"D", "x", .int⟩
    let y : Member := ⟨"D", "y", .int⟩
    let z : Member := ⟨"D", "z", .object "E"⟩
    let inA : Expr := .construct 3 (.object "E") [] [⟨u, .param p⟩, ⟨v, .param p⟩]
    let a : Lambda := ⟨5, [p], .construct 4 (.object "D") [] [⟨x, .param p⟩, ⟨z, inA⟩]⟩
    let inB : Expr := .construct 6 (.object "E") [] [⟨v, .param q⟩]
    let b : Lambda := ⟨8, [q], .construct 7 (.object "D") [] [⟨y, .param q⟩, ⟨z, inB⟩]⟩
    let inC : Expr := .construct 9 (.object "E") [] [⟨u, .param r⟩]
    let c : Lambda := ⟨11, [r], .construct 10 (.object "D") [] [⟨z, inC⟩, ⟨y, .param r⟩]⟩
    ∃ left right t u, outcome (do (← a.merge b).merge c) { next := 12 } = (.ok left, t) ∧
      outcome (do a.merge (← b.merge c)) { next := 12 } = (.ok right, u) ∧
      left.params = [r] ∧ right.params = [r] ∧ left.body.SameTree right.body := by
  intro p q r u v x y z inA a inB b inC c
  let F : Forest := .ofLists [.param p, .param q, .param r, inA, a.body, inB, b.body, inC, c.body]
    [a, b, c] (by decide) (by decide) (by simp [Expr.parts, inA, a, inB, b, inC, c])
    (by simp [Expr.fn?, inA, a, inB, b, inC, c]) (by simp [a, b, c]) (by simp)
  have ha : a.Plain F p := ⟨by simp [F, Forest.ofLists], rfl, rfl, rfl, by simp [a],
    by simp [a, inA, Assignment.key, u, v, x, z]⟩
  have hb : b.Plain F q := ⟨by simp [F, Forest.ofLists], rfl, rfl, rfl, by simp [b],
    by simp [b, inB, Assignment.key, y, z]⟩
  have hc : c.Plain F r := ⟨by simp [F, Forest.ofLists], rfl, rfl, rfl, by simp [c],
    by simp [c, inC, Assignment.key, y, z]⟩
  -- no lambda is inside
  let G : Forest := .ofLists [.param p, .param q, inA, a.body, inB, b.body] [] (by decide) (by simp)
    (by simp [Expr.parts, inA, a, inB, b]) (by simp [Expr.fn?, inA, a, inB, b]) (by simp) (by simp)
  have hbinds {e : Expr} (he : G.nodes e) (w : Param) : ¬ e.Binds w := fun h =>
    Forest.not_someFn (F := G) (fun _ hf => absurd hf List.not_mem_nil) he (Expr.binds_iff.1 h)
  have hF : F.Below 12 := Forest.below_ofLists (by decide) (by decide)
  have hAB : inA.Agrees inB := .construct (by simp [Assignment.key, u, v, Expr.agrees_param])
  have hAC : inA.Agrees inC := .construct (by simp [Assignment.key, u, v, Expr.agrees_param])
  have hBC : inB.Agrees inC := .construct (by simp [Assignment.key, u, v])
  exact merge_assoc ha hb hc hF hF rfl rfl rfl rfl (hbinds (by simp [G, Forest.ofLists]) p)
    (hbinds (by simp [G, Forest.ofLists]) q)
    (.construct (by simpa [Assignment.key, x, y, z] using hAB))
    (.construct (by simpa [Assignment.key, x, y, z] using hAC))
    (.construct (by simpa [Assignment.key, y, z, Expr.agrees_param] using hBC))

end

end ObjectMapping
