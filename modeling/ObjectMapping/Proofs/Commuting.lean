import ObjectMapping.Proofs.Completing
import ObjectMapping.Proofs.NormalForm
import ObjectMapping.Proofs.Renamed

/-!
# A pass before a merge and after it

A pass over the source of a merge leaves the constructions in it where they are, so that a merge
finds the same places afterwards, unless the extension assigns a construction where the source
assigns a marked call (`Expr.Hides`). What a pass over the merged tree makes is then congruent to
the merge of what a pass over the source made (`Expr.Overlaid.passesTo`). Between the two lies a
renaming, since a merge puts the parameter of the extension for that of the source :
`Expr.PassesTo` says, of a tree that is yet to be rewritten and of one that has been, that they are
the same once both are renamed and the first is rewritten.

`ExpanderDesign.expandLambda_merge` says so of runs, and that the two ways succeed alike. It needs
mapping expressions without placeholders, since one that comes into the source is taken for a
placeholder of the extension (`ExpanderDesign.expandLambda_merge_placeholder`).
-/

namespace ObjectMapping

open RunM

/-! ## What a pass comes to -/

/-- Once both are renamed, a pass over the first expression comes to an end, and to something that
is congruent to the second one. -/
def Expr.PassesTo (σ : Param → Param) (G : Forest) (host : Host) (cx : BuildContext)
    (options : Options) (m m' : Expr) : Prop :=
  ∀ ⦃a r⦄, m.Renames σ a → m'.Renames σ r → a.Expandable host cx ∧
    ∀ ⦃a'⦄, a.Becomes (.splicing G host cx options) a' → a'.Congruent r

/-- The renaming leaves the mapping expressions alone that the operand of the call holds, and the
source of the call, renamed or not, is no parameter of theirs. -/
def Expr.Detached (F : Forest) (host : Host) (σ : Param → Param) (c : Expr) : Prop :=
  c.Knows host fun g => F.fns g ∧ g.body.Fixed σ ∧ ∀ y, c.source? = some (.param y) →
    y ∉ g.params ∧ ¬ g.body.Binds (σ y)

section

variable {F G : Forest} {σ : Param → Param} {host : Host} {cx : BuildContext} {options : Options}
  {m m' w w' d d' s s' x : Expr} {J J' : Judgement}

theorem Expr.passesTo_param {y : Param} :
    (Expr.param y).PassesTo σ G host cx options (.param y) := by
  intro a r ha hr
  rw [renames_param.1 ha, renames_param.1 hr]
  refine ⟨.node rfl (by simp [children, parts]), fun a' h => ?_⟩
  rcases becomes_splicing.1 h with ⟨-, h⟩ | ⟨hne, -⟩
  · cases h
    exact .refl _
  · exact absurd rfl hne

/-- A pass goes to the parts of a node that carries no marker. -/
theorem Expr.Rebuilt.passesTo (h : m.Rebuilt (.of (PassesTo σ G host cx options)) m')
    (hmarkers : m.markers = []) (hparam : m.param? = none) :
    m.PassesTo σ G host cx options m' := by
  intro a r ha hr
  have hma := ha.rebuilt hparam
  have hmr : m.Rebuilt
      (.of fun c r => ∃ c', c.PassesTo σ G host cx options c' ∧ c'.Renames σ r) r :=
    h.chain (hr.rebuilt (h.param?_eq.trans hparam))
      fun h h' => ⟨_, becomes_of.1 h, becomes_of.1 h'⟩
  have hparts : a.Rebuilt (.of fun c r => c.Expandable host cx ∧
      ∀ ⦃c'⦄, c.Becomes (.splicing G host cx options) c' → c'.Congruent r) r :=
    hma.pair hmr (fun _ _ _ _ h ⟨_, hc, h'⟩ => hc h h') (fun _ _ _ _ _ _ h ⟨_, hc, h'⟩ => hc h h')
      fun _ _ _ _ h ⟨_, hc, h'⟩ => hc h h'
  refine ⟨.node (hma.markers_eq.trans hmarkers) fun c hc => ?_, fun a' h => ?_⟩
  · obtain ⟨r, -, h⟩ := forall₂_mem_left hparts.children hc
    exact (becomes_of.1 h).1
  · rcases becomes_splicing.1 h with ⟨-, h⟩ | ⟨hne, -⟩
    · have hcongruent : a'.Rebuilt (.of Congruent) r :=
        (h.of fun h => h).pair hparts (fun _ _ _ _ h h' => h'.2 h) (fun _ _ _ _ _ _ h h' => h'.2 h)
          fun _ _ _ _ h h' => h'.2 h
      exact hcongruent.congruent (h.param?_eq.trans (hma.param?_eq.trans hparam))
    · exact absurd (hma.markers_eq.trans hmarkers) hne

/-- Copies of the two do what the two do. -/
theorem Expr.PassesTo.copied (h : m.PassesTo σ G host cx options m')
    (hw : m.Becomes (.replacing []) w) (hw' : m'.Becomes (.replacing []) w') :
    w.PassesTo σ G host cx options w' := by
  intro a r ha hr
  refine h ?_ ?_
  · exact ha.trans hw.relabel_of_replacing_nil
  · exact hr.trans hw'.relabel_of_replacing_nil

/-- A pass over a tree, once that is renamed, comes to what a pass over the tree does. -/
theorem Expr.Becomes.passesTo (hFG : F ≤ G) (hσ : ∀ y, ¬ F.nodes (.param y) → σ y = y)
    (hσty : ∀ y, (σ y).ty = y.ty) (hd : d.All fun c => c.markers ≠ [] → c.Detached F host σ)
    (h : d.Becomes (.splicing F host cx options) d') : d.PassesTo σ G host cx options d' := by
  refine related_of_made (R := fun c r => r = c) (T := Becomes (.splicing F host cx options))
    (N := fun c => c.markers = [] ∧ c.param? = none) (fun _ h => nomatch h.2)
    (fun hc hr hs => hs.passesTo (hr.markers_eq.trans hc.1) (hr.param?_eq.trans hc.2))
    (fun {c r r'} hc hr hr' => ?_) hd rfl h
  obtain rfl := hr
  rcases becomes_splicing.1 hr' with ⟨hmarkers, hr'⟩ | ⟨hmarkers, hsplices⟩
  · cases hparam : r.param? with
    | some y =>
      obtain rfl := Expr.eq_of_param? hparam
      cases hr'
      exact .inl passesTo_param
    | none => exact .inr (.inr ⟨⟨hmarkers, rfl⟩, (rebuilt_keeping r).of becomes_keeping.1,
        hr'.of fun h => h⟩)
  · refine .inl fun a b ha hb => ⟨?_, fun a' h => ?_⟩
    · obtain ⟨source, g, p, hinlines, -⟩ := hsplices
      obtain ⟨i, ty, v, ho, hg, -⟩ := hinlines.operand
      obtain ⟨-, -, hsource⟩ := hc hmarkers ho hg
      have hp : g.params = [p] := by
        by_cases hitems : r.markers = [.mapAllWith]
        · exact (hinlines.items hitems).1
        · exact (hinlines.fits hitems).params
      obtain ⟨source', h'⟩ := hinlines.renamed ha hσty
        (fun heq => (hsource p (heq ▸ hinlines.first)).1 (by simp [hp]))
        fun y heq => (hsource y (heq ▸ hinlines.first)).2
      exact .marked h'
    · rcases becomes_splicing.1 h with ⟨hnone, -⟩ | ⟨-, h⟩
      · exact absurd (ha.markers_eq.symm.trans hnone) hmarkers
      · refine hsplices.congruent hFG hσ hσty ?_ ha h hb
        intro i ty v ho g hg
        obtain ⟨hgF, hfixed, -⟩ := hc hmarkers ho hg
        exact ⟨hgF, hfixed⟩

/-- A pass comes to what it should over what two ways make of an unmarked tree, if it does where
these do not go on. -/
theorem Expr.passesTo_of_made (hmade : ∀ {c m m' : Expr}, c.Becomes J m → c.Becomes J' m' →
      m.PassesTo σ G host cx options m' ∨
      (∃ d, c.standIn? = some d ∧ d.Becomes J m ∧ d.Becomes J' m') ∨
      c.Rebuilt J m ∧ c.Rebuilt J' m')
    (hx : x.All (·.markers = [])) (h : x.Becomes J m) (h' : x.Becomes J' m') :
    m.PassesTo σ G host cx options m' := by
  refine related_of_made (R := Becomes J) (T := Becomes J')
    (N := fun c => c.markers = [] ∧ c.param? = none) (fun _ h => nomatch h.2)
    (fun hc hr hs => hs.passesTo (hr.markers_eq.trans hc.1) (hr.param?_eq.trans hc.2))
    (fun {c r r'} hc hr hr' => ?_) hx h h'
  rcases hmade hr hr' with hpasses | hstands | ⟨hr, hr'⟩
  · exact .inl hpasses
  · exact .inr (.inl hstands)
  · cases hparam : c.param? with
    | some y =>
      obtain rfl := Expr.eq_of_param? hparam
      cases hr
      cases hr'
      exact .inl passesTo_param
    | none => exact .inr (.inr ⟨⟨hc, rfl⟩, hr.of fun h => h, hr'.of fun h => h⟩)

/-- A pass over an unmarked tree changes nothing in it. -/
theorem Expr.passesTo_self (hx : x.All (·.markers = [])) : x.PassesTo σ G host cx options x := by
  have same {c d : Expr} (h : c.Becomes .keeping d) : c.Rebuilt .keeping d :=
    becomes_keeping.1 h ▸ rebuilt_keeping c
  exact passesTo_of_made (fun h h' => .inr (.inr ⟨same h, same h'⟩)) hx (.put rfl) (.put rfl)

/-- A pass comes to what it should over what is left of an unmarked tree whose placeholders give way
to two values, if it does over the values. -/
theorem Expr.PassesTo.overriding (h : s.PassesTo σ G host cx options s')
    (hx : x.All (·.markers = [])) (hm : x.Becomes ((Judgement.replacing []).overriding s) m)
    (hm' : x.Becomes ((Judgement.replacing []).overriding s') m') :
    m.PassesTo σ G host cx options m' := by
  refine passesTo_of_made (fun {c m m'} hm hm' => ?_) hx hm hm'
  cases hm with
  | put hm =>
    cases hm' with
    | put hm' => exact .inl (h.copied hm.2 hm'.2)
    | enter he => exact absurd (hm.1.symm.trans he) (by simp)
    | standIn hs => exact False.elim hs
    | stay hs => exact False.elim hs
  | enter he hr =>
    cases hm' with
    | put hm' => exact absurd (hm'.1.symm.trans he) (by simp)
    | enter _ hr' => exact .inr (.inr ⟨hr, hr'⟩)
    | standIn hs => exact False.elim hs
    | stay hs => exact False.elim hs
  | standIn hs => exact False.elim hs
  | stay hs => exact False.elim hs

/-- A pass comes to what it should over two copies of an unmarked tree without placeholders for
which there is no value. -/
theorem Expr.passesTo_of_filling (hx : x.All (·.markers = [])) (hm : x.Becomes (.filling none) m)
    (hm' : x.Becomes (.filling none) m') : m.PassesTo σ G host cx options m' := by
  refine passesTo_of_made (fun {c m m'} hm hm' => ?_) hx hm hm'
  cases hm with
  | put hm => cases hm.2
  | enter he hr => exact .inr (.inr ⟨hr, hm'.rebuilt_of_filling he⟩)
  | standIn hs hd h =>
    cases hm' with
    | put hm' => cases hm'.2
    | enter he => exact absurd (hs.1.symm.trans he) (by simp)
    | standIn _ hd' h' =>
      obtain rfl := Option.some.inj (hd.symm.trans hd')
      exact .inr (.inl ⟨_, hd, h, h'⟩)
    | stay _ hnone => exact absurd (hnone.symm.trans hd) (by simp)
  | stay hs hnone => exact absurd hs.2.2 (by simp [hnone])

end

/-! ## Merges -/

/-- At a place that both assign, the second tree assigns a construction and the first one a marked
call. -/
inductive Expr.Hides : Expr → Expr → Prop
  | here {s x : Expr} : s.markers ≠ [] → x.isConstruct = true → Hides s x
  | merged {i j : NodeId} {sty ty : Ty} {sargs eargs source extension : List Assignment}
      {a x : Assignment} : a ∈ source → Assignment.find? a.member extension = some x →
    Hides a.value x.value →
    Hides (.construct i sty sargs source) (.construct j ty eargs extension)

section

variable {F G : Forest} {σ : Param → Param} {host : Host} {cx : BuildContext} {options : Options}
  {m m' s s' x : Expr}

/-- What a pass makes of a tree is a construction exactly if the tree is, unless one is hidden. -/
theorem Expr.Becomes.isConstruct_of_splicing (h : s.Becomes (.splicing F host cx options) s')
    (hhides : ¬ s.Hides x) (hx : x.isConstruct = true) : s'.isConstruct = s.isConstruct := by
  rcases becomes_splicing.1 h with ⟨-, h⟩ | ⟨hmarkers, -⟩
  · cases h <;> rfl
  · exact absurd (.here hmarkers hx) hhides

theorem Expr.Unfilled.isConstruct (h : s.Unfilled x) :
    s.isConstruct = true ∧ x.isConstruct = true := by
  cases h <;> exact ⟨rfl, rfl⟩

/-- Assignments to the same members leave the same members open. -/
theorem Assignment.isNone_find?_of_members {as bs : List Assignment} {m : Member}
    (h : bs.map (·.member) = as.map (·.member)) :
    (find? m bs).isNone = (find? m as).isNone := by
  have hiff (as : List Assignment) :
      (find? m as).isNone = true ↔ ∀ n ∈ as.map (·.member), ¬ n.same m = true := by
    simp [find?]
  rw [Bool.eq_iff_iff, hiff, hiff, h]

/-- A pass leaves as it is which placeholders have no value, unless a construction is hidden. -/
theorem Expr.Becomes.unfilled_iff (hpass : s.Becomes (.splicing F host cx options) s')
    (hhides : ¬ s.Hides x) : s.Unfilled x ↔ s'.Unfilled x := by
  induction s using Expr.byParts generalizing s' x with
  | construct i sty sargs source iha ihb =>
    rcases becomes_splicing.1 hpass with ⟨-, hpass⟩ | ⟨hmarkers, -⟩
    case inr => exact absurd rfl hmarkers
    cases hpass with | @construct _ _ _ _ _ _ source' _ hmb _ hb =>
    have hsource := forall₂_assignments hmb hb
    constructor
    · intro h
      cases h with
      | added ha hfind hbare =>
        rw [← Option.isNone_iff_eq_none, ← Assignment.isNone_find?_of_members hmb,
          Option.isNone_iff_eq_none] at hfind
        exact .added ha hfind hbare
      | merged ha hfind h =>
        obtain ⟨a', ha', hmember, hvalue⟩ := forall₂_mem_left hsource ha
        exact .merged ha' (hmember ▸ hfind)
          ((ihb _ ha hvalue fun hide => hhides (.merged ha hfind hide)).1 h)
    · intro h
      cases h with
      | added ha hfind hbare =>
        rw [← Option.isNone_iff_eq_none, Assignment.isNone_find?_of_members hmb,
          Option.isNone_iff_eq_none] at hfind
        exact .added ha hfind hbare
      | merged ha' hfind h =>
        obtain ⟨a, ha, hmember, hvalue⟩ := forall₂_mem_right hsource ha'
        rw [hmember] at hfind
        exact .merged ha hfind ((ihb _ ha hvalue fun hide => hhides (.merged ha hfind hide)).2 h)
  | _ =>
    refine iff_of_false (fun h => nomatch h) fun h => ?_
    have hconstruct := hpass.isConstruct_of_splicing hhides h.isConstruct.2
    rw [h.isConstruct.1] at hconstruct
    cases hconstruct

variable (hFG : F ≤ G) (hσ : ∀ y, ¬ F.nodes (.param y) → σ y = y) (hσty : ∀ y, (σ y).ty = y.ty)

include hFG hσ hσty

/-- A pass comes to what it should over what becomes of an assignment of the source, if it does
where both sides assign constructions. -/
theorem Assignment.Overlaid.passesTo {extension : List Assignment} {a a' r r' : Assignment}
    (hmember : a'.member = a.member)
    (hpass : a.value.Becomes (.splicing F host cx options) a'.value)
    (ha : a.value.All fun c => c.markers ≠ [] → c.Detached F host σ)
    (hx : ∀ x ∈ extension, x.value.All (·.markers = []))
    (hhides : ∀ x, find? a.member extension = some x → ¬ a.value.Hides x.value)
    (ih : ∀ {x m m'}, find? a.member extension = some x →
      a.value.Overlaid (.replacing []) ((Judgement.replacing []).overriding a.value) x.value m →
      a'.value.Overlaid (.replacing []) ((Judgement.replacing []).overriding a'.value) x.value m' →
      m.PassesTo σ G host cx options m')
    (h : Overlaid (.replacing []) (a, find? a.member extension) r)
    (h' : Overlaid (.replacing []) (a', find? a'.member extension) r') :
    r'.member = r.member ∧ r.value.PassesTo σ G host cx options r'.value := by
  have hvalue : a.value.PassesTo σ G host cx options a'.value := hpass.passesTo hFG hσ hσty ha
  rw [hmember] at h'
  generalize hfind : find? a.member extension = o at h h' ih hhides
  obtain ⟨m, v⟩ := a
  obtain ⟨_, v'⟩ := a'
  subst hmember
  cases h with
  | kept h =>
    cases h' with | kept h' =>
    exact ⟨rfl, hvalue.copied h h'⟩
  | @merged _ _ _ x hv hxc h =>
    cases h' with
    | merged _ _ h' => exact ⟨rfl, ih rfl h h'⟩
    | replaced hne => simp [hpass.isConstruct_of_splicing (hhides _ rfl) hxc, hv, hxc] at hne
  | @replaced _ _ _ x hne h =>
    cases h' with
    | merged hv hxc =>
      rw [hpass.isConstruct_of_splicing (hhides _ rfl) hxc] at hv
      simp [hv, hxc] at hne
    | replaced _ h' => exact ⟨rfl, hvalue.overriding (hx x (mem_of_find? hfind)) h h'⟩

/-- A pass over what a merge makes of a source comes to what the merge makes of what a pass over the
source has made. -/
theorem Expr.Overlaid.passesTo {A A' : Judgement} (hargs : ∀ {d m m' : Expr},
      d.All (·.markers = []) → d.Becomes A m → d.Becomes A' m' →
        m.PassesTo σ G host cx options m')
    (hs : s.All fun c => c.markers ≠ [] → c.Detached F host σ) (hx : x.All (·.markers = []))
    (hhides : ¬ s.Hides x) (hpass : s.Becomes (.splicing F host cx options) s')
    (h : s.Overlaid (.replacing []) A x m) (h' : s'.Overlaid (.replacing []) A' x m') :
    m.PassesTo σ G host cx options m' := by
  induction s using Expr.byParts generalizing A A' s' x m m' with
  | construct i sty sargs source iha ihb =>
    rcases becomes_splicing.1 hpass with ⟨-, hpass⟩ | ⟨hmarkers, -⟩
    case inr => exact absurd rfl hmarkers
    cases hpass with | @construct _ _ _ _ _ _ source' _ hmb _ hb =>
    cases h with
    | @construct _ _ j k _ ty _ eargs args _ extension kept added hmembers hargs₁ hkept hadded _ =>
    cases h' with
    | @construct _ _ _ _ _ _ _ _ _ _ _ kept' added' hmembers' hargs₂ hkept' hadded' _ =>
    have hpart {a : Assignment} (ha : a ∈ source) :
        a.value ∈ (Expr.construct i sty sargs source).parts :=
      List.mem_append_right _ (List.mem_map_of_mem ha)
    have hxpart {x : Assignment} (hx : x ∈ extension) :
        x.value ∈ (Expr.construct j ty eargs extension).parts :=
      List.mem_append_right _ (List.mem_map_of_mem hx)
    have hsource : List.Forall₂ (fun a a' : Assignment => a'.member = a.member ∧
        a.value.Becomes (.splicing F host cx options) a'.value) source source' :=
      forall₂_assignments hmb hb
    have hkept' : List.Forall₂ (fun r r' : Assignment => r'.member = r.member ∧
        r.value.PassesTo σ G host cx options r'.value) kept kept' := by
      rw [List.forall₂_map_left_iff] at hkept hkept'
      replace hkept' : List.Forall₂ (fun a r' => ∃ a' : Assignment, (a'.member = a.member ∧
          a.value.Becomes (.splicing F host cx options) a'.value) ∧ Assignment.Overlaid
            (.replacing []) (a', Assignment.find? a'.member extension) r') source kept' :=
        forall₂_comp_of_mem (fun _ _ a' _ h h' => ⟨a', h, h'⟩) hsource hkept'
      refine forall₂_fork_of_mem (fun a ha r r' h h' => ?_) hkept hkept'
      obtain ⟨a', ⟨hmember, hvalue⟩, h'⟩ := h'
      have hdetached := hs.part (hpart ha)
      have hhides {x : Assignment} (hfind : Assignment.find? a.member extension = some x) :
          ¬ a.value.Hides x.value := fun h => hhides (.merged ha hfind h)
      refine h.passesTo hFG hσ hσty hmember hvalue hdetached (fun x hmem => hx.part (hxpart hmem))
        (fun x => hhides) (fun {x m m'} hfind h h' => ?_) h'
      exact ihb a ha (hvalue.passesTo hFG hσ hσty hdetached).overriding hdetached
        (hx.part (hxpart (Assignment.mem_of_find? hfind))) (hhides hfind) hvalue h h'
    have hadded' : List.Forall₂ (fun r r' : Assignment => r'.member = r.member ∧
        r.value.PassesTo σ G host cx options r'.value) added added' := by
      simp only [Assignment.isNone_find?_of_members hmb] at hadded'
      refine forall₂_fork_of_mem (fun x hmem r r' h h' => ⟨h'.1.trans h.1.symm, ?_⟩) hadded hadded'
      exact passesTo_of_filling (hx.part (hxpart (List.mem_of_mem_filter hmem))) h.2 h'.2
    have hall := List.rel_append hkept' hadded'
    refine Rebuilt.passesTo (.construct (hmembers'.trans hmembers.symm)
      (map_eq_map_of_forall₂ (hall.flip.imp fun _ _ h => h.1)) ?_ ?_) rfl rfl
    · exact forall₂_fork_of_mem (fun d hd _ _ h h' => becomes_of.2
        (hargs (hx.part (List.mem_append_left _ hd)) h h')) hargs₁ hargs₂
    · rw [List.forall₂_map_left_iff, List.forall₂_map_right_iff]
      exact hall.imp fun _ _ h => becomes_of.2 h.2
  | _ => cases h

end

/-! ## What a merge keeps -/

section

variable {F : Forest} {P : Expr → Prop} {J : Judgement} {e e' : Expr} {source extension : Lambda}
  {t t' : Trail}

/-- A constant stays as it is if nothing is put in its place. -/
theorem Expr.eq_of_becomes_constant {i : NodeId} {ty : Ty} {v : Value}
    (hputs : ∀ {d}, ¬ J.puts (.constant i ty v) d) {d : Expr}
    (h : (Expr.constant i ty v).Becomes J d) : d = .constant i ty v := by
  cases h with
  | put h => exact absurd h hputs
  | enter _ hr =>
    cases hr
    rfl
  | standIn _ hd => cases hd
  | stay => rfl

theorem Expr.Rebuilt.takesKnown {host : Host} {K : Lambda → Prop}
    (hputs : ∀ {i ty v d}, ¬ J.puts (.constant i ty v) d) (h : e.Rebuilt J e')
    (he : e.TakesKnown host K) : e'.TakesKnown host K := by
  obtain ⟨i, ty, v, ho, hv⟩ := he
  exact ⟨i, ty, v, h.operand? (eq_of_becomes_constant hputs) ho, hv⟩

variable (hconstruct : ∀ i ty as bs, P (.construct i ty as bs)) (hparam : ∀ y, P (.param y))
  (hrebuilt : ∀ {J : Judgement} {e e' : Expr}, (∀ {i ty v d}, ¬ J.puts (.constant i ty v) d) →
    P e → e.Rebuilt J e' → P e')

include hconstruct hparam hrebuilt

/-- A property that no node loses when its parts become others holds throughout what a merge makes,
if it does throughout both sides. -/
theorem Lambda.merge_all {result : Lambda} (hs : F.fns source) (hx : F.fns extension)
    (hF : F.Below t.next) (hsP : source.body.All P) (hxP : extension.body.All P)
    (h : outcome (source.merge extension) t = (.ok result, t')) : result.body.All P := by
  obtain ⟨-, -, -, -, merged, t₁, t₂, hmerged, hbody, -⟩ := outcome_merge_ok h
  obtain ⟨G, hFG, hG, hnode, hlayered⟩ :=
    Expr.mergeValue_layered F.le_refl (F.body hs) (F.body hx) hF hmerged
  obtain ⟨-, -, -, -, hbecomes⟩ := Expr.substitute_becomes
    (Replacement.flat_ofParams source.params extension.params)
    (fun r hr => hFG.1 _ (Replacement.nodes_ofParams hs hx hr).1)
    (fun r hr => hFG.1 _ (Replacement.nodes_ofParams hs hx hr).2) hnode hG hbody
  refine hbecomes.all (fun _ hstands => ?_) (fun _ hputs => ?_) (fun he _ hr => ?_)
    (hlayered.all hconstruct (fun hputs => hrebuilt fun h => nomatch hputs h) hsP hxP)
  · exact False.elim hstands
  · obtain ⟨r, hr, -, rfl⟩ := hputs
    obtain ⟨_, -, y, -, rfl⟩ := Replacement.mem_ofParams hr
    exact .leaf (hparam y) rfl
  · refine hrebuilt (fun hputs => ?_) he hr
    obtain ⟨r, hr, hold, -⟩ := hputs
    obtain ⟨_, -, _, -, rfl⟩ := Replacement.mem_ofParams hr
    cases hold

omit hconstruct hparam hrebuilt in
/-- A merge makes no constant that differs from itself. -/
theorem Lambda.selfEqual_of_merge {result : Lambda} (hs : F.fns source) (hx : F.fns extension)
    (hF : F.Below t.next) (hsself : source.body.SelfEqual) (hxself : extension.body.SelfEqual)
    (h : outcome (source.merge extension) t = (.ok result, t')) : result.body.SelfEqual :=
  merge_all (by simp [Expr.value?]) (by simp [Expr.value?])
    (fun _ h hr => by rwa [hr.value?_eq]) hs hx hF hsself hxself h

end

/-! ## What a pass keeps -/

section

variable {F : Forest} {P : Expr → Prop} {host : Host} {cx : BuildContext} {options : Options}
  {e e' : Expr} {p q : Param}

/-- A property holds throughout what takes the place of a call, if it does throughout the call and
throughout the body over the source, and if every node has it that is made around these. -/
theorem Expr.Splices.all (hmade : ∀ c : Expr, c.isPrevious = false → (∀ v ∈ c.value?, v = .null) →
      (∀ f, c.fn? = some f → ∃ w, f.params = [w]) → P c)
    (hbody : ∀ {i ty v g y u b}, e.operand? = some (.constant i ty v) → v.Holds host g →
      g.params = [y] → u.All P → g.body.Becomes (.replacing [⟨.param y, u⟩]) b → b.All P)
    (he : e.All P) (h : e.Splices F host cx options e') : e'.All P := by
  obtain ⟨source, g, y, hinlines, hobject, hitems⟩ := h
  obtain ⟨i, ty, v, ho, hg, -⟩ := hinlines.operand
  have hsource := he.part (mem_parts_of_source? hinlines.first)
  have hnode {d : Expr} (h : d.isPrevious = false) (hv : d.value? = none) (hf : d.fn? = none) :
      P d := hmade d h (by simp [hv]) (by simp [hf])
  have hdefault (j : NodeId) (ty : Ty) : (defaultNode j ty).All P := by
    unfold defaultNode
    split
    · exact .leaf (hnode rfl rfl rfl) rfl
    · exact .leaf (hmade _ rfl (fun v hv => (Option.some.inj hv).symm) (by simp [fn?])) rfl
  by_cases hmarkers : e.markers = [.mapAllWith]
  · obtain ⟨w, f, -, -, hparams, hbecomes, i, j, rfl⟩ := hitems hmarkers
    have hw : (Expr.param w).All P := .leaf (hnode rfl rfl rfl) rfl
    have hf : f.All P := by
      have hb := hbody ho hg (hinlines.items hmarkers).1 hw hbecomes
      simpa [Lambda.All, Lambda.children, Lambda.paramExprs, hparams] using ⟨hw, hb⟩
    have hone {d : Expr} (h : d.isPrevious = false) (hv : d.value? = none)
        (hd : d.fn? = some f) : P d :=
      hmade d h (by simp [hv]) fun f' hf' => ⟨w, Option.some.inj (hd.symm.trans hf') ▸ hparams⟩
    split
    · refine .mk (hnode rfl rfl rfl) ?_
      simpa [children, parts] using ⟨hsource, .mk (hone rfl rfl rfl) hf⟩
    · refine .mk (hnode rfl rfl rfl) ?_
      simpa [children, parts] using ⟨hsource, .mk (hone rfl rfl rfl) hf⟩
  · obtain ⟨body, hbecomes, his⟩ := hobject hmarkers
    have hb := hbody ho hg (hinlines.fits hmarkers).params hsource hbecomes
    split at his
    · obtain ⟨i, j, k, l, rfl⟩ := his
      refine .mk (hnode rfl rfl rfl) ?_
      simp only [children, parts, List.forall_mem_cons, List.not_mem_nil, false_imp_iff,
        implies_true, and_true]
      refine ⟨.mk (hnode rfl rfl rfl) ?_, hdefault .., hb⟩
      simpa [children, parts] using ⟨hsource, hdefault ..⟩
    · exact his ▸ hb

variable {K : Lambda → Prop}

theorem Expr.TakesKnown.knows (h : e.TakesKnown host K) : e.Knows host K := by
  intro i ty v ho g hg
  obtain ⟨i', ty', v', ho', hknown⟩ := h
  obtain ⟨-, -, rfl⟩ := Expr.constant.inj (Option.some.inj (ho.symm.trans ho'))
  exact hknown hg

theorem Expr.TakesKnown.imp {K' : Lambda → Prop} (hK : ∀ g, K g → K' g)
    (h : e.TakesKnown host K) : e.TakesKnown host K' := by
  obtain ⟨i, ty, v, ho, hknown⟩ := h
  exact ⟨i, ty, v, ho, fun _ hg => hK _ (hknown hg)⟩

/-- A property that no node loses when its parts become others holds throughout what a pass makes,
if it does throughout the tree and throughout the mapping expressions over their sources. -/
theorem Expr.Becomes.all_of_splicing (hmade : ∀ c : Expr, c.isPrevious = false →
      (∀ v ∈ c.value?, v = .null) → (∀ f, c.fn? = some f → ∃ w, f.params = [w]) → P c)
    (hrebuilt : ∀ {c c'}, P c → c.Rebuilt (.splicing F host cx options) c' → P c')
    (hbody : ∀ {g y u b}, K g → g.params = [y] → u.All P →
      g.body.Becomes (.replacing [⟨.param y, u⟩]) b → b.All P)
    (he : e.All P) (hknown : e.All fun c => c.markers ≠ [] → c.TakesKnown host K)
    (h : e.Becomes (.splicing F host cx options) e') : e'.All P := by
  refine h.all (fun _ hstands => ?_) (fun he hsplices => ?_) (fun he _ hr => hrebuilt he.1 hr)
    (he.and hknown)
  · exact False.elim hstands
  · have hknown := (he.head.2 hsplices.markers_ne).knows
    exact hsplices.all hmade (fun ho hg => hbody (hknown ho hg))
      (he.imp fun _ h => h.1)

/-- What a pass makes has constants that equal themselves, if the tree and the mapping expressions
do. -/
theorem Expr.Becomes.selfEqual_of_splicing (he : e.SelfEqual)
    (hknown : e.All fun c => c.markers ≠ [] → c.TakesKnown host fun g => g.body.SelfEqual)
    (h : e.Becomes (.splicing F host cx options) e') : e'.SelfEqual := by
  have hrebuilt {J : Judgement} {c c' : Expr} (hc : ∀ v ∈ c.value?, v.equal v = true)
      (hr : c.Rebuilt J c') : ∀ v ∈ c'.value?, v.equal v = true := by rwa [hr.value?_eq]
  refine h.all_of_splicing (fun c _ hnull _ v hv => ?_) hrebuilt (fun hg _ hu hb => ?_) he hknown
  · rw [hnull v hv]
    rfl
  · refine hb.all (fun _ hstands => ?_) (fun _ hputs => ?_) (fun hc _ hr => hrebuilt hc hr) hg
    · exact False.elim hstands
    · obtain ⟨r, hr, -, rfl⟩ := hputs
      exact List.mem_singleton.1 hr ▸ hu

/-- A parameter that is not in a tree is not bound there. -/
theorem Expr.not_binds_of_all (h : e.All (· ≠ .param p)) : ¬ e.Binds p := by
  intro hbinds
  induction hbinds with
  | here hf hp => exact ((h.fn hf).param hp).head rfl
  | part hd _ ih => exact ih (h.part hd)
  | body hf _ ih => exact ih (h.fn hf).body

/-- What a pass makes has no placeholders, and no lambda that binds both of two parameters, if
neither the tree nor the mapping expressions have. -/
theorem Expr.Becomes.plain_of_splicing (he : e.outermost isPrevious = []) (hp : ¬ e.Binds p)
    (hknown : e.All fun c => c.markers ≠ [] → c.TakesKnown host fun g =>
      g.body.outermost isPrevious = [] ∧ ¬ g.body.Binds p ∧ ¬ g.body.Binds q)
    (h : e.Becomes (.splicing F host cx options) e') :
    e'.outermost isPrevious = [] ∧ (p ≠ q → ¬ e'.Blocks p (.param q)) := by
  have hbound {d : Expr} {z : Param} (h : ¬ d.Binds z) :
      d.All fun c => ∀ f, c.fn? = some f → z ∉ f.params :=
    not_someFn_iff.1 fun hsome => h (binds_iff.2 hsome)
  have hall : e'.All fun c => c.isPrevious = false ∧
      ∀ f, c.fn? = some f → p ∈ f.params → q ∈ f.params → p = q := by
    refine h.all_of_splicing (fun c hc _ hone => ⟨hc, fun f hf hp hq => ?_⟩)
      (fun hc hr => ⟨hr.isPrevious_eq.trans hc.1, fun f' hf' => ?_⟩)
      (fun {g y u b} hg hy hu hb => ?_) ((all_of_outermost he).and ((hbound hp).imp
        fun c hc f hf hmem => absurd hmem (hc f hf))) hknown
    · obtain ⟨w, hw⟩ := hone f hf
      rw [hw, List.mem_singleton] at hp hq
      exact hp.trans hq.symm
    · obtain ⟨f, hf, hbecomes⟩ := hr.fn?_becomes hf'
      rw [Param.eq_of_becomes hbecomes.params fun hputs => hputs.markers_ne rfl]
      exact hc.2 f hf
    · obtain ⟨hplain, hgp, hgq⟩ := hg
      refine hb.all (fun _ hstands => ?_) (fun _ hputs => ?_)
        (fun hc _ hr => ⟨hr.isPrevious_eq.trans hc.1, fun f' hf' hp hq => ?_⟩)
        ((all_of_outermost hplain).and ((hbound hgp).and (hbound hgq)))
      · exact False.elim hstands
      · obtain ⟨r, hr, -, rfl⟩ := hputs
        exact List.mem_singleton.1 hr ▸ hu
      · -- both come to stand in the place of the one parameter that is replaced
        obtain ⟨f, hf, hbecomes⟩ := hr.fn?_becomes hf'
        have hsource {z : Param} (hz : z ∈ f'.params) (hnot : z ∉ f.params) : u = .param z := by
          obtain ⟨x, hx, hxz⟩ := forall₂_mem_right hbecomes.params hz
          rcases Param.becomes_replacing_one.1 hxz with ⟨-, heq⟩ | ⟨-, rfl⟩
          · exact heq.symm
          · exact absurd hx hnot
        exact Expr.param.inj ((hsource hp (hc.2.1 f hf)).symm.trans (hsource hq (hc.2.2 f hf)))
  refine ⟨outermost_eq_nil_iff_all.2 (hall.imp fun _ h => h.1), fun hne => not_someFn_iff.2 ?_⟩
  exact hall.imp fun c hc f hf hrefuses => hne (hc.2 f hf hrefuses.1 (hrefuses.2 q rfl))

end

/-! ## Rewriting and merging -/

/-- The two lambdas have no parameter in common. -/
def Lambda.Apart (f g : Lambda) : Prop :=
  ∀ y, f.All (· ≠ .param y) ∨ g.All (· ≠ .param y)

/-- A mapping expression without placeholders that has no parameter in common with two lambdas. -/
structure Lambda.Spliceable (F : Forest) (s x g : Lambda) : Prop where
  fn : F.fns g
  formed : g.WellFormed
  plain : g.body.outermost Expr.isPrevious = []
  selfEqual : g.body.SelfEqual
  source : s.Apart g
  extension : x.Apart g

section

variable {F : Forest} {host : Host} {p q y : Param} {s x g : Lambda}

/-- What holds throughout a tree holds throughout every tree inside it. -/
theorem Expr.all_inside (e : Expr) : e.All fun c => ∀ Q, e.All Q → c.All Q := by
  have inside (d : Expr) (h : ∀ Q, e.All Q → d.All Q) : d.All fun c => ∀ Q, e.All Q → c.All Q := by
    induction d using byChildren with
    | h d ih => exact .mk h fun c hc => ih c hc fun Q hQ => (h Q hQ).child hc
  exact inside e fun _ h => h

/-- A renaming of the parameter of the source leaves the marked calls of the source alone. -/
theorem Lambda.detached (hp : s.params = [p]) (hq : x.params = [q])
    (h : s.body.All fun c => c.markers ≠ [] → c.TakesKnown host (Spliceable F s x)) :
    s.body.All fun c => c.markers ≠ [] →
      c.Detached (F.within Expr.Formed) host (p.renamed q) := by
  refine (h.and s.body.all_inside).imp fun c ⟨hc, hinside⟩ hmarkers i ty v ho g hg => ?_
  have hspliceable := (hc hmarkers).knows ho hg
  have hgp : g.All (· ≠ .param p) := (hspliceable.source p).resolve_left fun h =>
    (h.param (by simp [hp])).head rfl
  have hgq : g.All (· ≠ .param q) := (hspliceable.extension q).resolve_left fun h =>
    (h.param (by simp [hq])).head rfl
  have hfixed : g.body.Fixed (p.renamed q) := by
    refine hgp.body.imp fun d hd y hy => Param.renamed_of_ne ?_
    rintro rfl
    exact hd hy
  refine ⟨⟨hspliceable.fn, hspliceable.formed.all⟩, hfixed, fun y hy => ?_⟩
  have hgy : g.All (· ≠ .param y) := (hspliceable.source y).resolve_left fun h =>
    ((hinside _ h.body).part (Expr.mem_parts_of_source? hy)).head rfl
  refine ⟨fun hmem => (hgy.param hmem).head rfl, ?_⟩
  unfold Param.renamed
  split
  · exact Expr.not_binds_of_all hgq.body
  · exact Expr.not_binds_of_all hgy.body

end

section

variable {design : ExpanderDesign} {ops : Operation → Prop} {F : Forest} {host : Host}
  {cx : BuildContext} {s x s' : Lambda} {p q : Param}
  (hkeys : ∀ {op op' : Operation}, ops op → ops op' → op.signature = op'.signature →
    op.markers = op'.markers)
  (hs : s.Plain F p) (hx : F.fns x) (hxformed : x.WellFormed) (hxp : x.params = [q])
  (hxc : x.body.isConstruct = true) (hty : p.ty = q.ty)
  (hsbinds : ¬ s.body.Binds p) (hxbinds : ¬ x.body.Binds p)
  (hsops : s.body.All (Expr.CallsIn ops)) (hxops : x.body.All (Expr.CallsIn ops))
  (hsself : s.body.SelfEqual) (hxself : x.body.SelfEqual)
  (hmarked : s.body.All fun c => c.markers ≠ [] → c.TakesKnown host (Lambda.Spliceable F s x))
  (hunmarked : x.body.All (·.markers = [])) (hhides : ¬ s.body.Hides x.body)

namespace ExpanderDesign

include hs hxp hmarked hhides

section

include hkeys hxc hsbinds hsops hsself

/-- What a pass makes of a source may be merged as the source may. -/
theorem expandLambda_mergeable (hhost : host.WellFormed) (hdesign : design.WellFormed host)
    {state state' : Trail × TransformerCache} (hstate : F.Below state.1.next)
    (hcache : design.Caches ops state.2) (hstocks : design.Stocks state.2)
    (hrun : outcome (design.expandLambda host s cx) state = (.ok s', state')) :
    ∃ G, F.within Expr.Formed ≤ G ∧ G.Below state'.1.next ∧ s'.Plain G p ∧
      (p ≠ q → ¬ s'.body.Blocks p (.param q)) ∧ s'.body.SelfEqual ∧
      s.body.Becomes (.splicing (F.within Expr.Formed) host cx design.settings.options)
        s'.body := by
  have hknown {K : Lambda → Prop} (hK : ∀ g, Lambda.Spliceable F s x g → K g) :
      s.body.All fun c => c.markers ≠ [] → c.TakesKnown host K :=
    hmarked.imp fun c hc hmarkers => (hc hmarkers).imp hK
  obtain ⟨hparams, hpass, G, hFG, hG, hfn⟩ := expandLambda_splices hkeys
    (F := F.within Expr.Formed) ⟨hs.fn, hs.formed.all⟩ hsops
    (hknown fun g hg => ⟨⟨hg.fn, hg.formed.all⟩, hg.formed⟩) (hstate.of_le (F.within_le _)) hcache
    hrun
  have hformed : s'.WellFormed := (Visitor.walkFn_wellFormed Gives.lift
    (fun d hd => judge_gives hhost hdesign cx hd) hs.formed state hstocks).2 s' (by
      rw [← expandLambda, hrun])
  have hfree {g : Lambda} (hg : Lambda.Spliceable F s x g) :
      ¬ g.body.Binds p ∧ ¬ g.body.Binds q :=
    ⟨Expr.not_binds_of_all ((hg.source p).resolve_left fun h =>
      (h.param (by simp [hs.params])).head rfl).body, Expr.not_binds_of_all
        ((hg.extension q).resolve_left fun h => (h.param (by simp [hxp])).head rfl).body⟩
  obtain ⟨hplain, hblocks⟩ := hpass.plain_of_splicing hs.plain hsbinds
    (hknown fun g hg => ⟨hg.plain, hfree hg⟩)
  refine ⟨G, hFG, hG, ⟨hfn, hparams.trans hs.params, ?_, hplain, hformed⟩, hblocks,
    hpass.selfEqual_of_splicing hsself (hknown fun g hg => hg.selfEqual), hpass⟩
  rw [hpass.isConstruct_of_splicing hhides hxc, hs.constructs]

end

section

include hx hxformed hty hunmarked

/-- A pass over what a merge makes of the source comes to what the merge makes of what a pass over
the source has made. -/
theorem merge_passes {G : Forest} {l r : Lambda} {t t' u u' : Trail} {options : Options}
    (hFG : F.within Expr.Formed ≤ G) (hs' : s'.Plain G p)
    (hpass : s.body.Becomes (.splicing (F.within Expr.Formed) host cx options) s'.body)
    (hF : F.Below t.next) (hG : G.Below u.next) (hl : outcome (s.merge x) t = (.ok l, t'))
    (hr : outcome (s'.merge x) u = (.ok r, u')) :
    ∃ H, F.within Expr.Formed ≤ H ∧ H.Below t'.next ∧ H.fns l ∧ l.params = x.params ∧
      r.params = x.params ∧ l.body.Expandable host cx ∧
        ∀ ⦃b⦄, l.body.Becomes (.splicing H host cx options) b → b.Congruent r.body := by
  have hsfn : (F.within Expr.Formed).fns s := ⟨hs.fn, hs.formed.all⟩
  have hxfn : (F.within Expr.Formed).fns x := ⟨hx, hxformed.all⟩
  have hp := Forest.param _ hsfn (p := p) (by simp [hs.params])
  have hq := Forest.param _ hxfn (p := q) (by simp [hxp])
  obtain ⟨-, hlparams, m, hover, hbecomes, H, hFH, hH, -, hlfn⟩ := Lambda.outcome_merge hsfn hxfn
    F.assignsOnce_formed (hF.of_le (F.within_le _)) hs.plain hl
  obtain ⟨-, hrparams, m', hover', hbecomes', -⟩ := Lambda.outcome_merge
    (F := G.within Expr.Formed) ⟨hs'.fn, hs'.formed.all⟩ ⟨hFG.2 _ hxfn, hxformed.all⟩
    G.assignsOnce_formed (hG.of_le (G.within_le _)) hs'.plain hr
  rw [hs.params, hxp] at hbecomes
  rw [hs'.params, hxp] at hbecomes'
  have hσ (y : Param) (hy : ¬ (F.within Expr.Formed).nodes (.param y)) : p.renamed q y = y :=
    Param.renamed_of_ne fun h => hy (h ▸ hp)
  have hσty (y : Param) : (p.renamed q y).ty = y.ty := by
    unfold Param.renamed
    split
    · subst y
      exact hty.symm
    · rfl
  have hkept {d m m' : Expr} (hd : d.All (·.markers = [])) (h : d.Becomes .keeping m)
      (h' : d.Becomes .keeping m') : m.PassesTo (p.renamed q) H host cx options m' := by
    rw [Expr.becomes_keeping.1 h, Expr.becomes_keeping.1 h']
    exact Expr.passesTo_self hd
  have hpasses : m.PassesTo (p.renamed q) H host cx options m' := hover.passesTo hFH hσ hσty hkept
    (Lambda.detached hs.params hxp hmarked) hunmarked hhides hpass hover'
  obtain ⟨hexpandable, hcongruent⟩ := hpasses (hbecomes.relabel_of_ofParams hp hq)
    (hbecomes'.relabel_of_ofParams hp hq)
  exact ⟨H, hFH, hH, hlfn, hlparams, hrparams, hexpandable, hcongruent⟩

end

section

omit hxp hhides

include hkeys hx hxformed hsops hxops hsself hxself hunmarked

/-- What a merge makes is visited as the source and the extension are : a pass over it comes to an
end if it may. -/
theorem merge_expands {H : Forest} {l : Lambda} {t t' : Trail} {cache : TransformerCache}
    (hF : F.Below t.next) (hl : outcome (s.merge x) t = (.ok l, t'))
    (hFH : F.within Expr.Formed ≤ H) (hH : H.Below t'.next) (hlfn : H.fns l)
    (hcache : design.Caches ops cache) (hexpandable : l.body.Expandable host cx) :
    ∃ result state, outcome (design.expandLambda host l cx) (t', cache) = (.ok result, state) ∧
      result.params = l.params ∧ result.body.SelfEqual ∧
      l.body.Becomes (.splicing H host cx design.settings.options) result.body := by
  have hlformed : l.WellFormed := ends_iff.1 (Lambda.merge_ends hs.formed hxformed) hl
  have hlops : l.body.All (Expr.CallsIn ops) := Lambda.merge_all
    (fun _ _ _ _ _ hop => nomatch hop) (fun _ _ hop => nomatch hop)
    (fun _ h hr op hop => h op (hr.operation?_eq.symm.trans hop)) hs.fn hx hF hsops hxops hl
  have hlself : l.body.SelfEqual := Lambda.selfEqual_of_merge hs.fn hx hF hsself hxself hl
  let K (g : Lambda) : Prop := (H.fns g ∧ g.WellFormed) ∧ g.body.SelfEqual
  have hknown : l.body.All fun c => c.markers ≠ [] → c.TakesKnown host K := Lambda.merge_all
    (fun _ _ _ _ h => absurd rfl h) (fun _ h => absurd rfl h)
    (fun hputs h hr hmarkers => hr.takesKnown hputs (h (hr.markers_eq ▸ hmarkers))) hs.fn hx hF
    (hmarked.imp fun _ h hmarkers => (h hmarkers).imp fun _ hg =>
      ⟨⟨hFH.2 _ ⟨hg.fn, hg.formed.all⟩, hg.formed⟩, hg.selfEqual⟩)
    (hunmarked.imp fun _ h hmarkers => absurd h hmarkers) hl
  have imp {K' : Lambda → Prop} (hK : ∀ g, K g → K' g) :
      l.body.All fun c => c.markers ≠ [] → c.TakesKnown host K' :=
    hknown.imp fun c h hmarkers => (h hmarkers).imp hK
  obtain ⟨result, state, hresult, -⟩ := (expandLambda_reaches hkeys hlfn hlops
    (imp fun _ hg => hg.1) hH hlformed hexpandable).exists_outcome (s := (t', cache))
      ⟨Nat.le_refl _, hcache⟩
  obtain ⟨hparams, hbecomes, -⟩ := expandLambda_splices hkeys hlfn hlops (imp fun _ hg => hg.1) hH
    hcache hresult
  exact ⟨result, state, hresult, hparams,
    hbecomes.selfEqual_of_splicing hlself (imp fun _ hg => hg.2), hbecomes⟩

end

include hkeys hx hxformed hxc hty hsbinds hxbinds hsops hxops hsself hxself hunmarked

/-- Rewriting commutes with merging. A source constructs an object and holds no placeholders, and
its marked calls are calls of built-in operations that take mapping expressions without placeholders
from constants. An extension constructs an object too, holds no marked calls and hides none of the
source's behind a construction. Once the source is rewritten, a merge of what came out succeeds
exactly if the merge of the source does and what that makes can be rewritten. The two results are
structurally equal. -/
theorem expandLambda_merge (hhost : host.WellFormed) (hdesign : design.WellFormed host)
    {state state' left : Trail × TransformerCache} {right : Trail}
    (hstate : F.Below state.1.next) (hcache : design.Caches ops state.2)
    (hstocks : design.Stocks state.2)
    (hrun : outcome (design.expandLambda host s cx) state = (.ok s', state'))
    (hleft : F.Below left.1.next) (hleftCache : design.Caches ops left.2)
    (hright : state'.1.next ≤ right.next) :
    let first := (outcome (do design.expandLambda host (← s.merge x) cx : PassM Lambda) left).1
    let last := (outcome (s'.merge x) right).1
    ((∃ f, first = .ok f) ↔ ∃ f, last = .ok f) ∧ ∀ f f', first = .ok f → last = .ok f' →
      f.structurallyEqual f' = true ∧ f'.structurallyEqual f = true := by
  intro first last
  obtain ⟨G, hFG, hG, hs', hblocks, hs'self, hpass⟩ := expandLambda_mergeable hkeys hs hxp hxc
    hsbinds hsops hsself hmarked hhides hhost hdesign hstate hcache hstocks hrun
  have hxG : G.fns x := hFG.2 _ ⟨hx, hxformed.all⟩
  replace hG : G.Below right.next := hG.mono hright
  have hfirst := Lambda.outcome_merge_constructs hs.fn hx hleft hs.formed hxformed
    (by simpa [hs.params] using hsbinds) (by simpa [hs.params] using hxbinds) hs.constructs hxc
    (by rw [hs.params, hxp]; rfl)
  have hlast := Lambda.merge_failsIff_of_ne (E := fun _ => True) (fun _ => trivial) hs'.fn hxG hG
    hs'.formed hxformed hs'.constructs hxc hs'.params hxp hs'.plain
    fun hne => ⟨hblocks hne, fun h => hxbinds h.binds⟩
  by_cases hunfilled : s.body.Unfilled x.body
  · -- both merges fail
    obtain ⟨m, herror⟩ := hfirst.1 hunfilled
    obtain ⟨fault, herror', -⟩ := hlast.1 ((hpass.unfilled_iff hhides).1 hunfilled)
    have hnone (f : Lambda) : last ≠ .ok f := fun h => nomatch herror'.symm.trans h
    have hnone' (f : Lambda) : first ≠ .ok f := fun h => by
      obtain ⟨l, state₁, hmerge, -⟩ := outcome_bind_ok.1 (Prod.ext h rfl)
      exact nomatch herror.symm.trans (congrArg Prod.fst (CarriesTrail.outcome_lift hmerge))
    exact ⟨iff_of_false (fun ⟨f, h⟩ => hnone' f h) fun ⟨f, h⟩ => hnone f h,
      fun f _ h => absurd h (hnone' f)⟩
  obtain ⟨l, hl⟩ := hfirst.2 hunfilled
  obtain ⟨r, hr⟩ := hlast.2 (mt (hpass.unfilled_iff hhides).2 hunfilled)
  replace hl : outcome (s.merge x) left.1 = (.ok l, _) := Prod.ext hl rfl
  replace hr : outcome (s'.merge x) right = (.ok r, _) := Prod.ext hr rfl
  obtain ⟨H, hFH, hH, hlfn, hlparams, hrparams, hexpandable, hcongruent⟩ :=
    merge_passes hs hx hxformed hxp hty hmarked hunmarked hhides hFG hs' hpass hleft hG hl hr
  obtain ⟨result, state₁, hresult, hparams, hresultSelf, hbecomes⟩ := merge_expands hkeys hs hx
    hxformed hsops hxops hsself hxself hmarked hunmarked hleft hl hFH hH hlfn hleftCache hexpandable
  have hlift : outcome (liftM (s.merge x) : PassM Lambda) left =
      (.ok l, (outcome (s.merge x) left.1).2, left.2) := by
    change ((outcome (s.merge x) left.1).1, (outcome (s.merge x) left.1).2, left.2) = _
    rw [hl]
  have hfirst : first = .ok result := congrArg Prod.fst ((outcome_bind_of_ok hlift).trans hresult)
  have hlast : last = .ok r := congrArg Prod.fst hr
  refine ⟨iff_of_true ⟨_, hfirst⟩ ⟨_, hlast⟩, fun f f' h h' => ?_⟩
  obtain rfl := Except.ok.inj (hfirst.symm.trans h)
  obtain rfl := Except.ok.inj (hlast.symm.trans h')
  have hboth : result.params = r.params := by rw [hparams, hlparams, hrparams]
  exact ⟨Lambda.structurallyEqual_of_congruent hboth hresultSelf (hcongruent hbecomes),
    Lambda.structurallyEqual_of_congruent hboth.symm
      (Lambda.selfEqual_of_merge hs'.fn hxG hG hs'self hxself hr) (hcongruent hbecomes).symm⟩

omit hkeys hs hx hxformed hxp hxc hty hsbinds hxbinds hsops hxops hsself hxself hmarked hunmarked
  hhides in
/-- A member that the source maps, and to which the extension adds. -/
theorem expandLambda_merge_mapped :
    let a : Param := ⟨0, "a", .object "A"⟩
    let c : Param := ⟨1, "c", .object "A"⟩
    let g : Lambda := ⟨3, [c], .member 2 (.param c) ⟨"A", "n", .int⟩⟩
    let m : Mapper := ⟨1, .object "A", .int, g, g⟩
    let operand : Expr := .constant 4 (.mapper m.input m.output) (.mapper m)
    let mapped : Expr := .call 5 .int .mapWith none [.param a, operand]
    let n : Member := ⟨"D", "n", .int⟩
    let source : Lambda := ⟨7, [a], .construct 6 (.object "D") [] [⟨n, mapped⟩]⟩
    let b : Param := ⟨8, "b", .object "A"⟩
    let bare : Expr := .previous 9 .int none
    let one : Expr := .constant 10 .int (.int 1)
    let sum : Expr := .binary 11 .int .add bare one
    let extension : Lambda :=
      ⟨13, [b], .construct 12 (.object "E") [] [⟨⟨"E", "k", .int⟩, one⟩, ⟨n, sum⟩]⟩
    let design : ExpanderDesign := ⟨{}, fun _ _ => .error ""⟩
    let start : Trail × TransformerCache := ({ next := 14 }, [])
    ∃ rewritten state f f',
      outcome (design.expandLambda (.bare 1) source (.ofLambda source)) start =
        (.ok rewritten, state) ∧
      (outcome (do design.expandLambda (.bare 1) (← source.merge extension) (.ofLambda source) :
        PassM Lambda) start).1 = .ok f ∧
      (outcome (rewritten.merge extension) state.1).1 = .ok f' ∧
      f.structurallyEqual f' = true ∧ f'.structurallyEqual f = true := by
  intro a c g m operand mapped n source b bare one sum extension design start
  let F : Forest := .ofLists [.param a, .param c, g.body, operand, mapped, source.body, .param b,
      bare, one, sum, extension.body] [g, source, extension] (by decide) (by decide)
    (by simp [Expr.parts, g, source, mapped, operand, extension, sum, bare, one])
    (by simp [Expr.fn?, g, source, mapped, operand, extension, sum, bare, one])
    (by simp [g, source, extension]) (by simp)
  -- no lambda is inside
  let S : Forest := .ofLists [.param a, operand, mapped, source.body] [] (by decide) (by simp)
    (by simp [Expr.parts, source, mapped, operand]) (by simp [Expr.fn?, source, mapped, operand])
    (by simp) (by simp)
  let X : Forest := .ofLists [.param b, bare, one, sum, extension.body] [] (by decide) (by simp)
    (by simp [Expr.parts, extension, sum, bare, one])
    (by simp [Expr.fn?, extension, sum, bare, one]) (by simp) (by simp)
  have not_binds {G : Forest} (hG : ∀ f, ¬ G.fns f) {e : Expr} (he : G.nodes e) (z : Param) :
      ¬ e.Binds z :=
    fun h => Forest.not_someFn (fun _ hf => absurd hf (hG _)) he (Expr.binds_iff.1 h)
  have inSource {P : Expr → Prop} (h : ∀ d, S.nodes d → P d) : source.body.All P :=
    (Forest.all (by simp [S, Forest.ofLists])).imp h
  have inExtension {P : Expr → Prop} (h : ∀ d, X.nodes d → P d) : extension.body.All P :=
    (Forest.all (by simp [X, Forest.ofLists])).imp h
  have hvalue (i : Int64) : (Value.int i).WellFormed := Value.wellFormed_of_plain rfl rfl
  have hgformed : g.WellFormed := ⟨by simp [g], by simp [g]⟩
  have hs : source.Plain F a := by
    refine ⟨by simp [F, Forest.ofLists], rfl, rfl, rfl, by simp [source], ?_⟩
    have hmapped : mapped.WellFormed :=
      Expr.wellFormed_call.2 ⟨⟨rfl, rfl⟩, by simp, by simp [operand, m, hgformed]⟩
    simpa [source] using hmapped
  have hxformed : extension.WellFormed :=
    ⟨by simp [extension], by simp [extension, sum, bare, one, n, Assignment.key, hvalue]⟩
  have apart {f : Lambda} (hf : f.All (· ≠ .param c)) : f.Apart g := by
    intro y
    by_cases hy : y = c
    · exact .inl (hy ▸ hf)
    · refine .inr fun d hd => ?_
      have hc : (Expr.param c).All (· ≠ .param y) :=
        .leaf (fun h => hy (Expr.param.inj h).symm) rfl
      rcases List.mem_pair.1 hd with rfl | rfl
      · exact hc
      · exact .mk (by simp) fun d hd => List.mem_singleton.1 hd ▸ hc
  have hspliceable : Lambda.Spliceable F source extension g := by
    refine ⟨by simp [F, Forest.ofLists], hgformed, rfl, ?_, apart fun d hd => ?_,
      apart fun d hd => ?_⟩
    · refine .mk (by simp [Expr.value?]) fun d hd => List.mem_singleton.1 hd ▸ .leaf ?_ rfl
      simp [Expr.value?]
    · rcases List.mem_pair.1 hd with rfl | rfl
      · exact .leaf (by simp [a, c]) rfl
      · exact inSource (by simp [S, Forest.ofLists, operand, mapped, source, a, c])
    · rcases List.mem_pair.1 hd with rfl | rfl
      · exact .leaf (by simp [b, c]) rfl
      · exact inExtension (by simp [X, Forest.ofLists, bare, one, sum, extension, b, c])
  have hmarked : source.body.All fun d => d.markers ≠ [] →
      d.TakesKnown (.bare 1) (Lambda.Spliceable F source extension) := by
    refine inSource ?_
    simp only [S, Forest.ofLists, List.mem_cons, List.not_mem_nil, or_false, forall_eq_or_imp,
      forall_eq]
    refine ⟨fun h => absurd rfl h, fun h => absurd rfl h, fun _ => ?_, fun h => absurd rfl h⟩
    refine ⟨_, _, _, rfl, fun g' hg => ?_⟩
    cases hg
    exact hspliceable
  have hhides : ¬ source.body.Hides extension.body := by
    intro h
    cases h with
    | here hmarkers => exact hmarkers rfl
    | merged ha hfind h =>
      obtain rfl := List.mem_singleton.1 ha
      obtain rfl := Option.some.inj hfind
      cases h with | here _ hconstruct => cases hconstruct
  have hkeys {op op' : Operation} (h : op = .mapWith) (h' : op' = .mapWith)
      (_ : op.signature = op'.signature) : op.markers = op'.markers := by rw [h, h']
  obtain ⟨rewritten, state, hrun⟩ : ∃ rewritten state,
      outcome (design.expandLambda (.bare 1) source (.ofLambda source)) start =
        (.ok rewritten, state) := outcome_of_isOk (by decide +kernel)
  have hF : F.Below start.1.next := Forest.below_ofLists (by decide) (by decide)
  have hcache : design.Caches (· = .mapWith) start.2 := @caches_nil design _
  obtain ⟨hiff, hequal⟩ := expandLambda_merge hkeys hs (by simp [F, Forest.ofLists]) hxformed rfl
    rfl rfl (not_binds (G := S) (by simp [S, Forest.ofLists]) (by simp [S, Forest.ofLists]) a)
    (not_binds (G := X) (by simp [X, Forest.ofLists]) (by simp [X, Forest.ofLists]) a)
    (inSource (by simp [S, Forest.ofLists, Expr.CallsIn, Expr.operation?, operand, mapped, source]))
    (inExtension (by simp [X, Forest.ofLists, Expr.CallsIn, Expr.operation?, bare, one, sum,
      extension]))
    (inSource (by simp [S, Forest.ofLists, Expr.value?, operand, mapped, source]; rfl))
    (inExtension (by simp [X, Forest.ofLists, Expr.value?, bare, one, sum, extension]; rfl)) hmarked
    (inExtension (by simp [X, Forest.ofLists, Expr.markers, bare, one, sum, extension])) hhides
    (Host.bare_wellFormed 1) ⟨by simp [design], by simp [design]⟩ hF hcache stocks_nil hrun hF
    hcache (Nat.le_refl state.1.next)
  obtain ⟨f, hf⟩ : ∃ f, (outcome (do
      design.expandLambda (.bare 1) (← source.merge extension) (.ofLambda source) : PassM Lambda)
    start).1 = .ok f := exists_ok_of_isOk (by decide +kernel)
  obtain ⟨f', hf'⟩ := hiff.1 ⟨f, hf⟩
  exact ⟨rewritten, state, f, f', hrun, hf, hf', hequal f f' hf hf'⟩

omit hkeys hs hx hxformed hxp hxc hty hsbinds hxbinds hsops hxops hsself hxself hmarked hunmarked
  hhides in
/-- A mapping expression that is a placeholder. Where constructions are merged, the one that comes
into the source with it is taken for a placeholder of the extension. -/
theorem expandLambda_merge_placeholder :
    let ty : Ty := .object "E"
    let a : Param := ⟨0, "a", ty⟩
    let c : Param := ⟨1, "c", ty⟩
    let g : Lambda := ⟨3, [c], .previous 2 ty none⟩
    let m : Mapper := ⟨1, ty, ty, g, g⟩
    let mapped : Expr :=
      .call 5 ty .includeGiven none [.param a, .constant 4 (.mapper ty ty) (.mapper m)]
    let q : Member := ⟨"D", "Q", ty⟩
    let source : Lambda := ⟨8, [a], .construct 7 (.object "D") []
      [⟨q, .construct 6 ty [] [⟨⟨"E", "X", ty⟩, mapped⟩]⟩]⟩
    let b : Param := ⟨9, "b", ty⟩
    let extension : Lambda := ⟨13, [b], .construct 12 (.object "D") []
      [⟨q, .construct 11 ty [] [⟨⟨"E", "Y", .int⟩, .constant 10 .int (.int 1)⟩]⟩]⟩
    let design : ExpanderDesign := ⟨{}, fun _ _ => .error ""⟩
    let start : Trail × TransformerCache := ({ next := 14 }, [])
    ∃ rewritten state f f',
      outcome (design.expandLambda (.bare 1) source (.ofLambda source)) start =
        (.ok rewritten, state) ∧
      (outcome (do design.expandLambda (.bare 1) (← source.merge extension) (.ofLambda source) :
        PassM Lambda) start).1 = .ok f ∧
      (outcome (rewritten.merge extension) state.1).1 = .ok f' ∧
      f.structurallyEqual f' = false ∧ f'.structurallyEqual f = false := by
  intro ty a c g m mapped q source b extension design start
  exact ⟨_, _, _, _, rfl, rfl, rfl, rfl, rfl⟩

end ExpanderDesign

end

end ObjectMapping
