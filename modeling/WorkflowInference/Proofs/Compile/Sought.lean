import WorkflowInference.Proofs.Compile.Entered
import WorkflowInference.Proofs.Compile.Offers

/-!
Where a search for an input leads. It is split over the workflows that lie around a tool: each
searches among its own steps before the place, and hands on what it does not find. What one of them
finds is what a search finds that goes backwards over the tools of those steps.
-/
namespace WorkflowInference.Compile

open Entries Namespaces
open List hiding getD

def wantedBy (cwl : Doc) (a : String) : Result Wanted := do
  wantedIn (← (← cwl.field "inputs").field a)

theorem wantedBy_eq (hins : under? cwl "inputs" = some ins) (hparam : under? ins a = some param) :
    wantedBy cwl a = wantedIn param := by
  have hfield : cwl.field "inputs" = .ok ins := field_eq_ok.mpr hins
  have hfield' : ins.field a = .ok param := field_eq_ok.mpr hparam
  rw [wantedBy, hfield]
  change (ins.field a >>= wantedIn) = _
  rw [hfield']
  rfl

section Search

variable {α β : Type} {set : Setting} {w : Wanted}

def search (set : Setting) (w : Wanted) (xs : List (α × Leaf)) : Option (α × Doc × Doc) :=
  (offers set xs).reverse.find? fun x => w.takes x.2.2

theorem search_append (xs ys : List (α × Leaf)) :
    search set w (xs ++ ys) = (search set w ys).or (search set w xs) := by
  rw [search, offers_append, reverse_append, find?_append]
  rfl

theorem search_map (f : α → β) (xs : List (α × Leaf)) :
    search set w (xs.map fun x => (f x.1, x.2)) = (search set w xs).map fun x => (f x.1, x.2) := by
  rw [search, offers_map, ← map_reverse, find?_map]
  rfl

end Search

section Step

variable {d e f g : Draft} {run : StepRun sub c i key d e}
  {a arg : String}

structure Supplying (run : StepRun sub c i key d e) (f : Draft) : Prop where
  bound : f.HasIn i
  given : f.given = run.taken.given
  ordinary : Ordinary f
  fields : ∀ l, l ∉ ["in", "out", "when"] → under? (f.step i) l = under? (run.taken.step i) l

namespace Supplying

theorem start (hord : OrdinaryStep run) : Supplying run run.taken :=
  ⟨run.taken_in, rfl, hord.taken_open.ordinary, fun _ _ => rfl⟩

theorem step (h : Supplying run f) (hord : OrdinaryStep run)
    (hname : run.site.name = stepName c.stem i (c.keys.getD i "")) (harg : arg ∈ run.required)
    (hs : Supplies c run.site run.provided run.referred arg f g) : Supplying run g := by
  obtain ⟨-, z, hz, hcore, -⟩ := hs
  have hsettled : Settled c run.site run.provided f arg :=
    (hord.settled arg harg).mono fun k hk => by rw [h.given]; exact hk
  have hre := hz.rebinds hcore
  exact ⟨hre.keeps_in h.bound, (Draft.given_of_core hcore).trans ((hz.adds hname).1.trans h.given),
    (hz.ordinary hsettled h.ordinary).of_core hcore,
    fun l hl => (hre.field h.bound (by rintro rfl; simp at hl)).trans (h.fields l hl)⟩

theorem not_called (h : Supplying run f) (hord : OrdinaryStep run) (ha : a ∈ run.required)
    (hprov : run.provided.any (· == .str a) = false)
    (hgiven : has f.given (run.site.inName a) = false) : f.edgeCalls.lookup a = none := by
  have hsettled : Settled c run.site run.provided f a :=
    (hord.settled a ha).mono fun k hk => by rw [h.given]; exact hk
  exact hsettled.not_called h.ordinary.calls hprov hgiven

end Supplying

theorem StepRun.binding_kept (run : StepRun sub c i key d e) (hord : OrdinaryStep run)
    (hname : run.site.name = stepName c.stem i (c.keys.getD i "")) (hprov : .str a ∉ run.provided)
    (hgiven : has run.taken.given (run.site.inName a) = false)
    (hleft : a ∉ run.required ∨ c.setting.options.noInference) :
    get? (bindings (e.step i)) a = get? (bindings (run.named.step i)) a := by
  have hprov' := not_any_of_not_mem hprov
  have htaken : get? (bindings (run.taken.step i)) a = get? (bindings (run.named.step i)) a := by
    refine run.taken_chain.keeps (P := fun x : Draft => get? (bindings (x.step i)) a = _) ?_ rfl
    rintro k hk x y heq ⟨hx, arg, val, val', z, rfl, -, -, hz, hcore, -⟩
    refine ((hz.rebinds hcore).bindings_ne hx ?_).trans heq
    rintro rfl
    exact hprov hk
  rw [run.last_bindings, ← htaken]
  refine (run.bound_chain.keeps (P := fun x => Supplying run x ∧
    get? (bindings (x.step i)) a = get? (bindings (run.taken.step i)) a) ?_ ⟨.start hord, rfl⟩).2
  rintro arg harg x y ⟨hx, heq⟩ hs
  refine ⟨hx.step hord hname harg hs, ?_⟩
  obtain ⟨-, z, hz, hcore, -⟩ := hs
  rw [← heq]
  by_cases hne : arg = a
  · subst hne
    have hno := hleft.resolve_left (not_not_intro harg)
    rw [← hx.given] at hgiven
    rw [Draft.step_congr (Draft.steps_of_core hcore)]
    cases hz with
    | provided => rfl
    | left => rfl
    | given _ hgiven' => simp [hgiven] at hgiven'
    | passedOn _ _ _ hcall => simp [hx.not_called hord harg hprov' hgiven] at hcall
    | resolved _ _ _ hcall => simp [hx.not_called hord harg hprov' hgiven] at hcall
    | inferred _ _ _ _ _ hinfer => simp [hno] at hinfer
    | raised _ _ _ _ _ hinfer => simp [hno] at hinfer
  · exact (hz.rebinds hcore).bindings_ne hx.bound hne

end Step

/-- Where a search leads that goes backwards over some tools: to what it finds, or to an input that
still wants the same. -/
inductive Sought (set : Setting) (r : Compiled) (xs : List (List Nat × Leaf)) (name : String)
    (w : Wanted) : Option Origin → Prop
  | found {x : List Nat × Doc × Doc} (h : search set w xs = some x) :
      Sought set r xs name w (some (.output x.1 x.2.1.text))
  | raised (h : search set w xs = none) (hw : wantedBy r.tree.part.cwl name = .ok w) :
      Sought set r xs name w (some (.input name))

section Inputs

variable {c : Scope} {s : Site} {provided : List Doc} {referred : List String} {d e : Draft}
  {arg : String}

theorem Supplied.of_given (h : Supplied c s provided referred d arg e)
    (hprov : provided.any (· == .str arg) = false) (hgiven : has d.given (s.inName arg)) :
    e.steps = (d.bind s.index arg (.str (s.inName arg))).steps ∧ has e.inputs (s.inName arg) := by
  cases h with
  | given => exact ⟨rfl, by simp [Draft.bind, Draft.setStep, Draft.declare, has_put]⟩
  | provided hprov' => simp [hprov] at hprov'
  | left _ _ _ hno => simp [hgiven] at hno
  | passedOn _ hno => simp [hgiven] at hno
  | resolved _ hno => simp [hgiven] at hno
  | inferred _ hno => simp [hgiven] at hno
  | raised _ hno => simp [hgiven] at hno

theorem Supplied.of_open (h : Supplied c s provided referred d arg e)
    (hname : s.name = stepName c.stem s.index (c.keys.getD s.index ""))
    (hprov : provided.any (· == .str arg) = false) (hgiven : has d.given (s.inName arg) = false)
    (hcall : d.edgeCalls.lookup arg = none) (hinfer : c.setting.options.noInference = false) :
    ∃ sig w found seen, wantedOf (d.step s.index) s.tool.cwl arg = .ok (sig, w) ∧
      searchSteps c d w arg s.index = .ok (found, seen) ∧ e = found.elim
      ((d.declare (s.inName arg) (.map sig)).bind s.index arg (.str (s.inName arg))) fun x =>
      d.bind s.index arg (.str (stepName c.stem x.1 (c.keys.getD x.1 "") ++ "/" ++ x.2)) := by
  rcases h.of_not_called (by rw [Keyed.has, hcall]; rfl) hprov hinfer with ⟨hgiven', -⟩ | hopen
  · simp [hgiven] at hgiven'
  · rwa [Site.inName, hname]

end Inputs

section Once

variable {set : Setting} {run : OnceRun sub set t r} {steps : List Doc} {lss : List (List Leaf)}
  {P : Nat → Draft → Prop} {Q : Draft → Prop} {i j : Nat} {d e : Draft} {a : String}

namespace Listed

variable {p : PartTree} {ls : List Leaf}

section

variable (h : Listed run steps lss)

include h

theorem own_keys (hprog : Progress (.start t run.start) j d) : SameKeys (.map []) d.ownInputs := by
  have hkept : get? run.start.tree "inputs" = under? t.yml "inputs" :=
    (openWorkflow_opens run.opening).kept "inputs" (by decide)
  have hown : (Draft.start t run.start).ownInputs = .map [] := by
    change getD run.start.tree "inputs" (.map []) = _
    rw [getD, hkept]
    exact h.bare.inputs
  rw [← hown]
  exact hprog.own

theorem inputs_spec : ∃ ins, under? r.tree.part.cwl "inputs" = some (.map ins) ∧
    (∀ k, has run.last.inputs k → has ins k) ∧ ∀ x ∈ ins, x ∈ run.last.inputs := by
  obtain ⟨concl⟩ := run.concluded
  have hown : concl.own = [] := by
    have hkeys := h.own_keys run.progress
    rw [concl.own_eq] at hkeys
    obtain ⟨es, hes, hkeys⟩ := hkeys.of_map
    cases hes
    exact map_eq_nil_iff.mp hkeys
  have hstr : ∀ x ∈ run.last.inputs, ∃ k, x.1 = .str k := by
    refine run.keeps_steps (P := fun _ d => ∀ x ∈ d.inputs, ∃ k, x.1 = .str k) ?_
      (by simp [Draft.start])
    intro j d e here hd x hx
    rcases (here.head.adds (h.site_name here)).2 x hx with hx | ⟨y, hy⟩
    · exact hd x hx
    · exact ⟨_, hy⟩
  refine ⟨update concl.own run.last.inputs, ?_, fun k hk => has_update.mpr (.inr hk),
    fun x hx => ?_⟩
  · rw [concl.part]
    exact concl.inputs
  · rw [hown] at hx
    exact (mem_update_of_str hstr hx).resolve_left (not_mem_nil)

theorem follow_input
    (hdecl : has run.last.inputs
      (stepName run.scope.stem i (run.scope.keys.getD i "") ++ sep ++ a)) :
    r.tree.follow (stepName run.scope.stem i (run.scope.keys.getD i "") ++ sep ++ a) =
      some (.input (stepName run.scope.stem i (run.scope.keys.getD i "") ++ sep ++ a)) := by
  obtain ⟨ins, hins, hhas, -⟩ := h.inputs_spec
  have hinput :
      r.tree.IsInput (.str (stepName run.scope.stem i (run.scope.keys.getD i "") ++ sep ++ a)) :=
    ⟨ins, hins, by rw [at?_str]; exact hhas _ hdecl⟩
  rw [PartTree.follow, h.placedRun.amongSteps_input i a]
  exact if_pos hinput

theorem follow_output (hj : j < run.scope.keys.length) (hp : r.tree.subs[j]? = some p)
    (hfrom : p.provenance o = some x) :
    r.tree.follow (stepName run.scope.stem j (run.scope.keys.getD j "") ++ "/" ++ o) =
      some (.output (j :: x.1) x.2) := by
  rw [PartTree.follow, h.placedRun.amongSteps_output hj hp o, hfrom]
  rfl

theorem rules (hl : Lists set t.path t.yml ls) (parent : String) :
    rulesOf (noteOf t.yml i) parent = .ok (.map []) := by
  have hstated : ((opened t.yml).elim (.map []) fun o =>
      (under? o.notes (Workflow.placeKey i ((keysIn t.yml).getD i ""))).getD (.map [])) =
        .map [] := by
    rw [run.opened, Option.elim_some, h.notes]
    rfl
  rw [noteOf, hstated]
  cases hinner : innerAt t.yml i with
  | none => rfl
  | some v =>
    rw [Option.elim_some]
    split
    · rfl
    · obtain ⟨ls', -, hls'⟩ := hl.at_inner hinner
      rcases hls'.bare.wic with hwic | hwic
      · rw [hwic]
        rfl
      · rw [hwic]
        rfl

theorem quiet (hl : Lists set t.path t.yml ls) (hun : Unaltered r.tree t.flow)
    (hj : j < run.start.keys.length) (hp : r.tree.subs[j]? = some p)
    (hbrings : Brings set p ls' outs) : Quiet run.scope run.last j outs := by
  obtain ⟨tool, p', htool, hp', hcwl⟩ := run.runAt_eq hj
  cases hp.symm.trans hp'
  refine ⟨⟨tool, htool, ?_⟩, ⟨_, run.heldNote_last hun hj, h.rules hl⟩, h.last_scatter hj,
    fun e he => ?_⟩
  · rw [← hcwl]
    exact hbrings.outputs
  · obtain ⟨n, hn⟩ := getElem?_of_mem he
    obtain ⟨_, -, k, hk, hlog, -⟩ := forall₂_at hbrings.offered hn
    rw [hk]
    exact isLog_of_namesLog hlog

end

end Listed

namespace Listed

theorem wanted_inputs (h : Listed run steps lss) (here : StepIn run i d e)
    (hord : OrdinaryStep here.head) (ha : a ∈ here.head.required)
    (hprov : here.head.provided.any (· == .str a) = false)
    (hinfer : set.options.noInference = false)
    (hgiven : has here.head.taken.given (here.head.site.inName a) = false)
    (hnew : ∀ x ∈ here.head.taken.inputs, x.1.text ≠ here.head.site.inName a) (hx : x ∈ e.inputs)
    (htext : x.1.text = here.head.site.inName a) :
    wantedIn x.2 = wantedBy here.head.tool.cwl a := by
  have hname := h.site_name here
  rw [here.head.last_rest.2] at hx
  refine (here.head.bound_chain.keeps (P := fun f =>
    Supplying here.head f ∧ ∀ x ∈ f.inputs, x.1.text = here.head.site.inName a →
    wantedIn x.2 = wantedBy here.head.tool.cwl a) ?_ ⟨.start hord, fun x hx htext =>
      absurd htext (hnew x hx)⟩).2 x hx htext
  rintro arg harg f g ⟨hf, hinputs⟩ hs
  refine ⟨hf.step hord hname harg hs, fun x hx htext => ?_⟩
  obtain ⟨-, z, hz, hcore, -⟩ := hs
  rw [Draft.inputs_of_core hcore] at hx
  rcases (hz.adds hname).2 x hx with hx' | hx'
  · exact hinputs x hx' htext
  rw [hx'] at htext
  cases Site.inName_inj htext
  rw [← hf.given] at hgiven
  have hscatter : under? (f.step i) "scatter" = none := by
    obtain ⟨fs, hprepared, hfs⟩ := here.head.prepared_step
    rw [hf.fields _ (by decide), here.head.taken_field (by decide), hprepared, under?_map,
      hfs _ (by decide) (by decide)]
    exact h.scatter here
  obtain ⟨sig, w, found, seen, hwanted, -, rfl⟩ :=
    hz.of_open hname hprov hgiven (hf.not_called hord ha hprov hgiven) hinfer
  obtain ⟨ins, param, hins, hparam, hw, hsig⟩ := wantedOf_spec hwanted hscatter
  cases found with
  | some y => exact hinputs x hx (by rw [hx']; rfl)
  | none =>
    rcases mem_put hx with hx | rfl
    · exact hinputs x hx (by rw [hx']; rfl)
    · exact hsig.trans ((wantedBy_eq hins hparam).trans hw).symm

theorem follow_inName (h : Listed run steps lss) (here : StepIn run i d e)
    (hdecl : has run.last.inputs (here.head.site.inName a)) :
    r.tree.follow (here.head.site.inName a) = some (.input (here.head.site.inName a)) := by
  rw [Site.inName, h.site_name here] at hdecl ⊢
  exact h.follow_input hdecl

end Listed

structure ListedAt (h : Listed run steps lss) (place : StepAt run P i) : Prop where
  lists : ∃ ls, Lists set t.path t.yml ls
  unaltered : Unaltered r.tree (t.path, t.yml)
  parts : h.Parts
  names : set.options.namingConventions = false
  ordinary : OrdinaryStep place.here.head
  untouched : Untouched run.scope i place.before
  keeps : Keeps run.scope i place.after run.last

namespace ListedAt

variable {h : Listed run steps lss} {place : StepAt run P i}

theorem origin_given (hat : ListedAt h place) (ha : a ∈ place.here.head.required)
    (hprov : place.here.head.provided.any (· == .str a) = false)
    (hgiven : has place.here.head.taken.given (place.here.head.site.inName a)) :
    (r.tree.sourceAt i a).bind r.tree.follow = some (.input (place.here.head.site.inName a)) := by
  have hname := h.site_name place.here
  have hord := hat.ordinary
  obtain ⟨last⟩ := place.here.head.lastSupply (P := Supplying place.here.head)
    (fun b hb x y hx hs => hx.step hord hname hb hs) (.start hord) ha
  rw [← last.holds.given] at hgiven
  obtain ⟨hsteps, hdecl⟩ := last.supplied.of_given hprov hgiven
  rw [place.sourceAt_last last hsteps rfl, Option.bind_some,
    h.follow_inName place.here (place.later.inputs _ (last.frame.inputs _ hdecl))]

theorem search_marks (hat : ListedAt h place)
    (hfound : searchSteps run.scope run.last w a i = .ok (found, seen)) :
    found = none ∧
      ((offers set (marksBefore r lss i)).reverse.find? fun x => w.takes x.2.2) = none ∨
      ∃ j o x p z, found = some (j, o) ∧ j < i ∧
        ((offers set (marksBefore r lss i)).reverse.find? fun x => w.takes x.2.2) =
        some (j :: z, x) ∧
        r.tree.subs[j]? = some p ∧ p.provenance o = some (z, x.1.text) := by
  obtain ⟨⟨ls, hl⟩, hun, hparts, hnames, -, -, -⟩ := hat
  have hi := place.lt_length
  have hbrings : ∀ j, ∃ outs, j < i → ∃ p ls, r.tree.subs[j]? = some p ∧ lss[j]? = some ls ∧
      Brings set p ls outs := by
    intro j
    by_cases hj : j < i
    · obtain ⟨p, hp⟩ : ∃ p, r.tree.subs[j]? = some p :=
        ⟨_, getElem?_eq_getElem (by rw [run.subs_length]; omega)⟩
      obtain ⟨ls, hls⟩ : ∃ ls, lss[j]? = some ls :=
        ⟨_, getElem?_eq_getElem (by rw [h.length_eq]; omega)⟩
      obtain ⟨outs, houts⟩ := hparts j p ls hp hls
      exact ⟨outs, fun _ => ⟨p, ls, hp, hls, houts⟩⟩
    · exact ⟨[], fun hlt => absurd hlt hj⟩
  choose outs houts using hbrings
  have hquiet : ∀ j < i, Quiet run.scope run.last j (outs j) := by
    intro j hj
    obtain ⟨p, ls', hp, -, hbrings⟩ := houts j hj
    exact h.quiet hl hun (by omega) hp hbrings
  rw [searchSteps_quiet hnames hquiet hfound]
  exact lastFit_marks w houts

theorem origin_open (hat : ListedAt h place) (ha : a ∈ place.here.head.required)
    (hprov : place.here.head.provided.any (· == .str a) = false)
    (hinfer : set.options.noInference = false)
    (hgiven : has place.here.head.taken.given (place.here.head.site.inName a) = false)
    (hnew : ∀ x ∈ place.here.head.taken.inputs, x.1.text ≠ place.here.head.site.inName a) :
    ∃ w, wantedBy place.here.head.tool.cwl a = .ok w ∧
      Sought set r (marksBefore r lss i) (place.here.head.site.inName a) w
      ((r.tree.sourceAt i a).bind r.tree.follow) := by
  have hord := hat.ordinary
  have hname := h.site_name place.here
  obtain ⟨last⟩ := place.here.head.lastSupply (P := Supplying place.here.head)
    (fun b hb x y hx hs => hx.step hord hname hb hs) (.start hord) ha
  have hopen := last.holds.given ▸ hgiven
  obtain ⟨sig, w, found, seen, hwanted, hfound, hafter⟩ :=
    last.supplied.of_open hname hprov hopen (last.holds.not_called hord ha hprov hopen) hinfer
  have hscatter : under? (last.before.step i) "scatter" = none := by
    rw [← last.fields _ (by decide), place.here.head.kept_field (by decide)]
    exact h.scatter place.here
  obtain ⟨ins, param, hins, hparam, hw, -⟩ := wantedOf_spec hwanted hscatter
  have hby : wantedBy place.here.head.tool.cwl a = .ok w := (wantedBy_eq hins hparam).trans hw
  refine ⟨w, hby, ?_⟩
  -- the search finds the same in the last draft, where each step has its outputs
  replace hfound := (searchSteps_congr (place.searchAlike_last last) rfl rfl).symm.trans hfound
  rcases hat.search_marks hfound with ⟨rfl, hsearch⟩ | ⟨j, o, x, p, z, rfl, hj, hsearch, hp, hfrom⟩
  · rw [Option.elim_none] at hafter
    have hsteps : last.after.steps =
        (last.before.bind i a (.str (place.here.head.site.inName a))).steps := by
      rw [hafter]
      rfl
    have hdecl : has run.last.inputs (place.here.head.site.inName a) := by
      refine place.later.inputs _ (last.frame.inputs _ ?_)
      rw [hafter]
      simp [Draft.bind, Draft.setStep, Draft.declare, has_put]
    rw [place.sourceAt_last last hsteps rfl, Option.bind_some, h.follow_inName place.here hdecl]
    refine .raised hsearch ?_
    obtain ⟨ins, hins, hhas, hmem⟩ := h.inputs_spec
    obtain ⟨p, hp⟩ := Option.isSome_iff_exists.mp (hhas _ hdecl)
    rw [wantedBy_eq hins hp, ← hby]
    refine h.wanted_inputs place.here hord ha hprov hinfer hgiven hnew
      (x := (.str (place.here.head.site.inName a), p)) ?_ rfl
    exact hat.keeps.inputs _ (hmem _ (mem_of_get? hp)) a (by rw [Site.inName, hname]; rfl)
  · have hi := place.lt_length
    rw [Option.elim_some] at hafter
    rw [place.sourceAt_last last (v := .str _) (congrArg Draft.steps hafter) rfl, Option.bind_some,
      h.follow_output (by show j < run.start.keys.length; omega) hp hfrom]
    exact .found hsearch

end ListedAt

end Once

end WorkflowInference.Compile
