import WorkflowInference.Proofs.Compile.Linking
import Mathlib.Data.List.Nodup
import Mathlib.Data.List.Pairwise
import Mathlib.Tactic.MkIffOfInductiveProp

/-!
Explicit edges join the right two points. An input that refers to a named output takes it from the
step of the workflow in which it lies, however deep the two ends stand: the input is brought up to
the workflow that holds both, and the output is found there under its raised name.
-/
namespace WorkflowInference.Compile

open Entries Result Namespaces List Option Draft
open Yaml (aliasKey inlineKey)

section Linked

variable {set : Setting} {w v : String × Doc} {is js : List Nat} {p : List Nat}
  {x : String × String} {i : Nat} {a : String}

section

variable (hl : Linked set w)

include hl

theorem Linked.anchorsAt_sub (hv : subAt w p = some v) : anchorsAt w p = [] := by
  rw [eq_nil_iff_forall_not_mem]
  intro y hy
  obtain ⟨js, m, u, rfl, hu, -, hy⟩ := exists_of_mem_anchorsAt hy
  rw [subAt_concat hu] at hv
  rw [(hl.silent js u m v hu hv).2.1] at hy
  cases hy

theorem Linked.site_cases (hv : subAt w is = some v) (hp : x ∈ anchorsAt w p) :
    (∃ k rest, p = is ++ k :: rest ∧ k < (keysIn v.2).length) ∨
      ¬ is <+: p ∧ ∃ c u i ks j ls, subAt w c = some u ∧ is = c ++ i :: ks ∧
        p = c ++ j :: ls ∧ i ≠ j ∧
        i < (keysIn u.2).length ∧ j < (keysIn u.2).length := by
  rcases paths_diverge is p with ⟨l, rfl⟩ | ⟨i, l, rfl⟩ | ⟨c, i, ks, j, ls, rfl, rfl, hne⟩
  · cases l with
    | nil =>
      rw [append_nil, hl.anchorsAt_sub hv] at hp
      cases hp
    | cons k rest =>
      rw [anchorsAt_append hv (cons_ne_nil _ _)] at hp
      exact .inl ⟨k, rest, rfl, lt_of_mem_anchorsAt hp⟩
  · obtain ⟨u, hu, -⟩ := subAt_of_append hv
    rw [hl.anchorsAt_sub hu] at hp
    cases hp
  · obtain ⟨u, hu, hrest⟩ := subAt_of_append hv
    obtain ⟨y, hy, -⟩ := bind_eq_some_iff.mp hrest
    rw [anchorsAt_append hu (cons_ne_nil _ _)] at hp
    refine .inr ⟨fun hpre => hne ?_, c, u, i, ks, j, ls, hu, rfl, rfl, hne, lt_of_innerAt hy,
      lt_of_mem_anchorsAt hp⟩
    exact (cons_prefix_cons.mp ((prefix_append_right_inj c).mp hpre)).1

theorem Linked.not_isGiven (hv : subAt w is = some v)
    (h : RefersTo w (is ++ js) i a p out) : ¬ IsGiven set v (raisedName set v js i a) := by
  intro hgiven
  obtain ⟨z, y, hz, hi, hy, -⟩ := h
  rw [subAt_append hv] at hz
  generalize hk : raisedName set v js i a = k at hgiven
  induction hgiven generalizing is js with
  | @own v m b hm ha hno =>
    rcases raisedName_eq_own (hl.named is v hv) hz hi hm hk with ⟨rfl, rfl, rfl⟩ |
      ⟨ks, u, -, hu, -, -⟩
    · cases hz
      rw [hy] at hno
      cases hno
    · rw [(hl.silent is v m u hv hu).1] at ha
      cases ha
  | @inner v u m b hu hb ih =>
    rcases raisedName_eq_own (hl.named is v hv) hz hi (lt_of_innerAt hu) hk with ⟨rfl, rfl, rfl⟩ |
      ⟨ks, u', rfl, hu', hz, hraised⟩
    · cases hz
      rw [(hl.silent is _ i u hv hu).2.2 a] at hy
      cases hy
    · rw [hu] at hu'
      cases hu'
      have hsub : subAt w (is ++ [m]) = some u := by rw [subAt_concat hv, hu]
      exact ih hsub hz hraised

end

end Linked

section Tools

variable {set : Setting} {n : Nat} {t : Task} {r : Compiled} {js : List Nat}
  {v : String × Doc} {i : Nat}

theorem Faithful.tool (h : Faithful set n t r) (hv : subAt t.flow js = some v)
    (hclear : Transparent set v) (hi : i < (keysIn v.2).length) (htool : innerAt v.2 i = none) :
    ∃ p tool, r.tree.at? (js ++ [i]) = some p ∧ p.subs = [] ∧ p.part.cwl = tool.cwl ∧
      set.tools.get? ⟨Path.stem ((keysIn v.2).getD i ""), globalSpace⟩ = some tool := by
  obtain ⟨m, u, s, -, ⟨run⟩, rfl, hat⟩ := h.atPath hv
  rw [run.keysIn_eq] at hi
  obtain ⟨place⟩ := run.placeAt hi
  rcases place.here.head.brought_cases with ⟨⟨inner⟩⟩ | ⟨⟨tool⟩⟩
  · rw [(place.here.inner_spec inner).1] at htool
    cases htool
  · have hmem := place.here.mem_toolIds tool.isTool
    have hspace : place.here.head.space = globalSpace := hclear.global _ hmem
    have hfound := tool.registered (hclear.known _ hmem)
    have hsubs : s.tree.subs[i]? = some (.node tool.part []) :=
      place.here.subs_eq (by rw [tool.brought])
    refine ⟨.node tool.part [], place.here.head.tool, ?_, rfl, tool.cwl, ?_⟩
    · rw [PartTree.at?_append hat, PartTree.at?, hsubs]
      rfl
    · rw [place.here.keys_getD, ← hspace]
      exact hfound

theorem Faithful.follow (h : Faithful set n t r)
    (hclear : ∀ is w, subAt t.flow is = some w → Transparent set w) (hv : subAt t.flow js = some v)
    (hi : i < (keysIn v.2).length) (hp : r.tree.at? (js ++ [i]) = some p)
    (hleaf : p.subs = []) (ho : o ∈ outputTexts p.part.cwl)
    (htext : sourceText (pathNames set t.flow (js ++ [i])) o = .ok text) :
    r.tree.follow text = some (.output (js ++ [i]) o) := by
  obtain ⟨n, rfl⟩ := compileAt_succ h.yields
  obtain ⟨run⟩ := h.once
  have hplaced := (hclear [] _ rfl).placedRun run
  cases js with
  | nil =>
    cases hv
    rw [nil_append, pathNames_single, sourceText, nil_append, join_singleton,
      run.nameOf_eq (hclear [] _ rfl).known hi] at htext
    rw [nil_append, PartTree.at?] at hp
    obtain ⟨q, hq, hp⟩ := bind_eq_some_iff.mp hp
    cases hp
    rw [PartTree.follow, ← Except.ok.inj htext, hplaced.amongSteps_output (run.lt_keys hi) hq o,
      PartTree.provenance_leaf hleaf ho]
    rfl
  | cons k js =>
    obtain ⟨x, hx, hv⟩ := bind_eq_some_iff.mp hv
    have hk : k < (keysIn t.yml).length := lt_of_innerAt (w := t.flow) hx
    obtain ⟨u, s, hs, hq, rfl⟩ := h.inner hx
    rw [cons_append, PartTree.at?, hq, bind_some] at hp
    have hinner : ∀ is w, subAt u.flow is = some w → Transparent set w := fun is w hw =>
      hclear (k :: is) w (by rw [subAt, hx, bind_some, hw])
    have hprov := (hs.provenance hinner hv hi hp hleaf ho).1
    rw [cons_append, pathNames, hx, elim_some, sourceText,
      run.nameOf_eq (hclear [] _ rfl).known hk] at htext
    rw [raisedName] at hprov
    rw [PartTree.follow, ← Except.ok.inj htext,
      hplaced.amongSteps_output (run.lt_keys hk) hq, hprov]
    rfl

end Tools

section Inputs

variable {c : Scope} {d e : Draft} {arg : String} {site : EdgeSite}

theorem Taken.of_reference (h : Taken c s d arg val e) (haux : isAuxiliary arg = false)
    (hx : under? val aliasKey = some x) (hdef : d.edgeDefs.lookup x.text = some site) :
    (∃ a text, (partition (callPath c s arg) (defPath site)).2 = [a] ∧
        sourceText (partition (defPath site) (callPath c s arg)).2 site.slot = .ok text ∧
        e = d.bind s.index arg (source text)) ∨
      ∃ a b rest sig, (partition (callPath c s arg) (defPath site)).2 = a :: b :: rest ∧
        e = ((d.declare (s.inName arg) sig).call (s.inName arg) site).bind s.index arg
        (source (s.inName arg)) := by
  cases h with
  | auxiliary h => simp [haux] at h
  | unresolved _ htarget hname hnone =>
    rw [hx] at htarget
    cases htarget
    rw [← edgeName_eq_ok hname, hdef] at hnone
    cases hnone
  | deferred _ htarget hname hsite htails =>
    rw [hx] at htarget
    cases htarget
    rw [← edgeName_eq_ok hname, hdef] at hsite
    cases hsite
    exact .inr ⟨_, _, _, _, htails, rfl⟩
  | resolved _ htarget hname hsite htails htext =>
    rw [hx] at htarget
    cases htarget
    rw [← edgeName_eq_ok hname, hdef] at hsite
    cases hsite
    exact .inl ⟨_, _, htails, htext, rfl⟩
  | value _ halias => simp [hx] at halias
  | raw _ halias => simp [hx] at halias

theorem Supplied.of_called {provided : List Doc} {referred : List String}
    (h : Supplied c s provided referred d arg e) (hprov : provided.any (· == .str arg) = false)
    (hgiven : has d.given (s.inName arg) = false) (hreferred : referred.contains arg)
    (hcall : d.edgeCalls.lookup arg = some site) :
    ∃ stems, stemsOf (partition (callPath c s arg) (defPath site)).2 = .ok stems ∧
      ((liesInside c.stem stems ∧ ∃ sig, e =
          ((d.declare (s.inName arg) sig).bind s.index arg (source (s.inName arg))).call
          (s.inName arg) site) ∨
        liesInside c.stem stems = false ∧ ∃ text,
          sourceText (partition (defPath site) (callPath c s arg)).2 site.slot = .ok text ∧
          e = d.bind s.index arg (source text)) := by
  cases h with
  | provided h => simp [hprov] at h
  | given _ h => simp [hgiven] at h
  | passedOn _ _ _ h hstems hinside =>
    rw [hcall] at h
    cases h
    exact ⟨_, hstems, .inl ⟨hinside, _, rfl⟩⟩
  | resolved _ _ _ h hstems hhere htext =>
    rw [hcall] at h
    cases h
    exact ⟨_, hstems, .inr ⟨hhere, _, htext, rfl⟩⟩
  | left _ _ h => simp_all
  | inferred _ _ _ _ h => simp_all
  | raised _ _ _ _ h => simp_all

end Inputs

/-- The input of a step takes an output from where it stands in the workflow; when it stands
outside, the input becomes one of the workflow and is called there. -/
structure Fetches (set : Setting) (is : List Nat) (t : Task) (r : Compiled) (i : Nat) (a : String)
    (p : List Nat) (out : String) : Prop where
  inside : ∀ l, p = is ++ l → ∃ text, r.tree.sourceAt i a = some text ∧
    sourceText (pathNames set (t.path, t.yml) l) out = .ok text
  outside : ¬ is <+: p → r.tree.sourceAt i a = some (nameOf set (t.path, t.yml) i ++ sep ++ a) ∧
    r.tree.IsInput (.str (nameOf set (t.path, t.yml) i ++ sep ++ a)) ∧
    Keyed.has r.env.edgeCalls (nameOf set (t.path, t.yml) i ++ sep ++ a)

section Step

variable {set : Setting} {n : Nat} {t : Task} {r : Compiled}
  {run : OnceRun (compileAt set n) set t r} {i : Nat} {w : String × Doc} {is : List Nat}
  {P : Nat → Draft → Prop} {a out : String} {p : List Nat} {place : StepAt run P i}

theorem StepAt.bindingAt_taken (place : StepAt run P i) (take : FirstTake place.here.head a v)
    (haux : isAuxiliary a = false)
    (hsteps : take.after.steps = (take.before.bind i a (source text)).steps) :
    r.tree.sourceAt i a = some text := by
  have hbound := take.binding haux (source text) (get?_of_bind take.stated hsteps) (source_alias _)
    (source_inline _)
  rw [PartTree.sourceAt, run.bindingAt_eq place.lt_length, place.later.steps i (Nat.le_refl i),
    hbound, bind_some, sourceOf_source]
  rfl

theorem LinkedStep.path_eq {d e : Draft} {here : StepIn run i d e} (h : LinkedStep w is here) :
    run.scope.path here.head.site = pathNames set w (is ++ [i]) := by
  rw [pathNames_append h.within, pathNames_single, ← h.namespaces, Scope.path, here.site_nameOf]
  rfl

theorem LinkedStep.fetches (h : LinkedStep w is place.here) (hrefers : RefersTo w is i a p out) :
    Fetches set is t r i a p out := by
  obtain ⟨x, hx, hp⟩ := hrefers.reference h.within
  have hl := h.linked
  have hi := place.here.lt_length
  have hnamed : Named set t.flow := hl.named is _ h.within
  obtain ⟨haux, hpath, v, hv, henc, halias⟩ := referenceAt_eq_some hx
  rw [← place.here.brought_step h.unaltered] at hv
  rw [place.here.keys_getD] at hpath
  obtain ⟨hprov, hbinding⟩ := place.here.head.named_binding hv hpath
  obtain ⟨take⟩ := place.here.head.firstTake hprov hbinding
  obtain ⟨arg, val, val', f, hname, hval, henc', hf, hcore, -⟩ := provide_taken take.taking
  cases hname
  cases hval.symm.trans take.value
  cases henc.symm.trans henc'
  -- the name leads to the output
  obtain ⟨site, hsite⟩ : ∃ site, take.before.edgeDefs.lookup x.text = some site := by
    rw [take.defs]
    exact isSome_iff_exists.mp (h.known a x hx)
  have hentry := Keyed.mem_of_lookup hsite
  rw [take.defs] at hentry
  obtain rfl : site = ⟨pathNames set w p, out⟩ := (h.defs _ hentry).site_eq hl hp
  have hdef : defPath ⟨pathNames set w p, out⟩ = pathNames set w p := by
    rw [defPath, splitLast_of_contains (hl.slots p _ hp), append_nil]
  have hcall : callPath run.scope place.here.head.site a = pathNames set w (is ++ [i]) := by
    rw [callPath, h.path_eq,
      splitLast_of_contains (hl.inputs is _ i a x h.within hi hx), append_nil]
  have hcases := hf.of_reference haux halias hsite
  rw [hdef, hcall] at hcases
  have hsteps := steps_of_core hcore
  rcases hl.site_cases h.within hp with ⟨k, rest, rfl, hk⟩ |
    ⟨hout, c, u, j, ks, m, ls, hu, rfl, rfl, hne, hj, hm⟩
  · refine ⟨fun l hlist => ?_, fun hno => absurd (prefix_append _ _) hno⟩
    obtain rfl := append_cancel_left hlist
    have hne : i ≠ k := by
      rintro rfl
      rw [anchorsAt_append h.within (cons_ne_nil _ _)] at hp
      cases rest with
      | nil =>
        have hself := partition_append (pathNames set w (is ++ [i])) []
        rw [append_nil] at hself
        rcases hcases with ⟨a, text, htails, -⟩ | ⟨a, b, more, sig, htails, -⟩ <;>
          rw [hself] at htails <;> cases htails
      | cons m rest =>
        cases hat : innerAt t.yml i with
        | none =>
          rw [anchorsAt, hat] at hp
          cases hp
        | some u =>
          rw [(hl.silent is _ i u h.within hat).2.2 a] at hx
          cases hx
    have hpart := partition_pathNames h.within hnamed hi hk hne [] rest
    have hback := partition_pathNames h.within hnamed hk hi hne.symm rest []
    rcases hcases with ⟨b, text, -, htext, rfl⟩ | ⟨b, b', more, sig, htails, -⟩
    · rw [hback] at htext
      exact ⟨text, place.bindingAt_taken take haux hsteps, htext⟩
    · rw [hpart, pathNames_single] at htails
      cases htails
  · refine ⟨fun l hlist => absurd ⟨l, hlist.symm⟩ hout, fun _ => ?_⟩
    have hpart := partition_pathNames hu (hl.named c u hu) hj hm hne (ks ++ [i]) ls
    rw [append_assoc, cons_append] at hcases
    rcases hcases with ⟨b, text, htails, -⟩ | ⟨b, b', more, sig, -, rfl⟩
    · -- the way to the call leads through at least one more step
      obtain ⟨z, hz⟩ : ∃ z, innerAt u.2 j = some z := by
        have hsub := h.within
        rw [subAt_append hu] at hsub
        exact (bind_eq_some_iff.mp hsub).imp fun _ h => h.1
      rw [hpart, pathNames, hz, elim_some] at htails
      cases ks with
      | nil =>
        rw [nil_append, pathNames_single] at htails
        cases htails
      | cons k ks =>
        rw [cons_append, pathNames] at htails
        cases htails
    · rw [← place.here.site_nameOf, ← Site.inName]
      refine ⟨place.bindingAt_taken take haux hsteps,
        run.isInput (.inr ⟨_, rfl, place.later.inputs _ (take.inputs _ ?_)⟩), ?_⟩
      · rw [inputs_of_core hcore]
        simp [call, Draft.bind, setStep, declare, has_put]
      · obtain ⟨concl⟩ := run.concluded
        rw [concl.calls]
        refine place.later.calls _ (take.calls _ ?_)
        rw [calls_of_core hcore]
        simp [call, Draft.bind, setStep, Keyed.has_put]

theorem LinkedStep.fetches_inner (h : LinkedStep w is place.here) {names : List String}
    (htabled : TabledStep names place.here) (inner : SubRun place.here.head)
    (hcls : under? inner.result.tree.part.cwl "class" = some (.str "Workflow")) {js : List Nat}
    {j : Nat} (hwaits : Waits w (is ++ [i]) (place.here.key, inner.yml) js j a p out)
    (hinput : inner.result.tree.IsInput (.str (raisedName set (place.here.key, inner.yml) js j a)))
    (hcalled : Keyed.has inner.result.env.edgeCalls
      (raisedName set (place.here.key, inner.yml) js j a)) :
    Fetches set is t r i (raisedName set (place.here.key, inner.yml) js j a) p out := by
  have hl := h.linked
  have hi := place.here.lt_length
  have hnamed : Named set t.flow := hl.named is _ h.within
  have hat := (place.here.inner_spec inner).1
  obtain ⟨z, x, hz, hj, hx, hp⟩ := id hwaits.refers
  have hsep := hl.inputs _ z j a x hz hj hx
  rw [subAt_append hwaits.within] at hz
  have hrefers : RefersTo w (is ++ i :: js) j a p out := by simpa using hwaits.refers
  have hraised : nameOf set t.flow i ++ sep ++ raisedName set (place.here.key, inner.yml) js j a =
      raisedName set t.flow (i :: js) j a := (raisedName_cons (w := t.flow) hat).symm
  generalize harg : raisedName set (place.here.key, inner.yml) js j a = arg at *
  -- the input is called, so it is looked up in the table
  have howned : Keyed.has place.here.head.owned.edgeCalls arg := by
    refine place.here.head.owned_frame.calls _ (place.here.head.prepared_frame.calls _ ?_)
    rw [calls_of_core inner.brought]
    exact Keyed.has_update.mpr (.inr hcalled)
  have hrequired := inner.mem_required hcls hinput
  obtain ⟨last⟩ := place.here.head.lastSupply (P := fun d => (∀ x ∈ d.edgeCalls, Calls set w x) ∧
    Tabled names set t.flow d.edgeCalls d.given ∧ Keyed.has d.edgeCalls arg)
    (fun b _ f g ⟨hf, hf', hhas⟩ hfg =>
    ⟨h.supplied hf hfg, hf'.requires hfg, hfg.frame.calls _ hhas⟩) ⟨h.taken, htabled.taken,
    place.here.head.taken_frame.calls _ (place.here.head.named_frame.calls _ howned)⟩ hrequired
  have hprov : place.here.head.provided.any (· == .str arg) = false := by
    refine not_any_of_not_mem fun hk => ?_
    have hmem := place.here.mem_providedAt hk
    rw [(hl.silent is _ i _ h.within hat).1] at hmem
    cases hmem
  have hgiven : has last.before.given (place.here.head.site.inName arg) = false := by
    rw [← Bool.not_eq_true, Site.inName, place.here.site_nameOf, hraised]
    exact fun hhas => hl.not_isGiven h.within hrefers (last.holds.2.1.isGiven hhas)
  obtain ⟨site, hsite⟩ := isSome_iff_exists.mp last.holds.2.2
  obtain rfl : site = ⟨pathNames set w p, out⟩ := by
    rcases last.holds.1 _ (Keyed.mem_of_lookup hsite) with ⟨q, y, hy, hname⟩ | hright
    · dsimp only at hname
      exact absurd (hname ▸ hinput) (h.free inner q y hy)
    · exact hright _ _ _ _ _ _ _ hwaits harg.symm
  have hreferred : place.here.head.referred.contains arg :=
    contains_iff_mem.mpr (mem_filter.mpr ⟨hrequired, howned⟩)
  obtain ⟨stems, hstems, hcases⟩ := last.supplied.of_called hprov hgiven hreferred hsite
  have hdef : defPath ⟨pathNames set w p, out⟩ = pathNames set w p := by
    rw [defPath, splitLast_of_contains (hl.slots p _ hp), append_nil]
  have hcall : callPath run.scope place.here.head.site arg =
      pathNames set w (is ++ i :: (js ++ [j])) := by
    rw [hdef, callPath, h.path_eq, ← harg] at hstems
    rw [callPath, h.path_eq, ← harg, splitLast_raisedName (fun ks u hu => hl.named _ u
      (by rw [subAt_append hwaits.within]; exact hu)) hz hj hsep, ← pathNames_append hwaits.within]
    simp
  rw [hdef, hcall] at hstems hcases
  have hstem : run.scope.stem = Path.stem t.path := rfl
  rcases hl.site_cases h.within hp with ⟨k, rest, rfl, hk⟩ |
    ⟨hout, c, u, y, ks, m, ls, hu, rfl, rfl, hne, hy, hm⟩
  · -- both ends lie in this workflow
    refine ⟨fun l hlist => ?_, fun hno => absurd (prefix_append _ _) hno⟩
    obtain rfl := append_cancel_left hlist
    have hne : i ≠ k := by
      rintro rfl
      exact hwaits.outside ⟨rest, by simp⟩
    rw [partition_pathNames h.within hnamed hi hk hne] at hstems
    have hway : subAt t.flow (i :: js) = some z := by
      rw [subAt, hat]
      exact hz
    have hread := stemsOf_pathNames (fun ks z hz =>
      hl.named (is ++ ks) z (by rw [subAt_append h.within]; exact hz)) hway hj hstems
    rcases hcases with ⟨hinside, -⟩ | ⟨-, text, htext, hlast⟩
    · rw [hread, cons_append, pathStems, liesInside, hstem] at hinside
      simp at hinside
    · rw [partition_pathNames h.within hnamed hk hi hne.symm] at htext
      exact ⟨text, place.sourceAt_last (v := source text) last (by rw [hlast]; rfl) rfl, htext⟩
  · -- the output lies in a workflow around this one
    refine ⟨fun l hlist => absurd ⟨l, hlist.symm⟩ hout, fun _ => ?_⟩
    have hsub : subAt u (y :: ks) = some t.flow := by
      rw [← subAt_append hu]
      exact h.within
    have hway : subAt u (y :: (ks ++ i :: js)) = some z := by
      rw [← cons_append, subAt_append hsub, subAt, hat]
      exact hz
    rw [append_assoc, cons_append, partition_pathNames hu (hl.named c u hu) hy hm hne] at hstems
    rw [show y :: (ks ++ i :: (js ++ [j])) = (y :: (ks ++ i :: js)) ++ [j] by simp] at hstems
    have hread := stemsOf_pathNames (fun ks z hz =>
      hl.named (c ++ ks) z (by rw [subAt_append hu]; exact hz)) hway hj hstems
    have hinside : liesInside run.scope.stem stems := by
      have hother : Path.stem u.1 ≠ Path.stem t.path := by
        intro heq
        have := congrArg length (hl.stems c _ u _ hu h.within heq)
        simp at this
      have hmem := mem_pathStems hsub i (js ++ [j])
      rw [show y :: ks ++ i :: (js ++ [j]) = (y :: (ks ++ i :: js)) ++ [j] by simp, ← hread] at hmem
      rw [cons_append, pathStems] at hread
      rw [hread] at hmem ⊢
      rw [liesInside, hstem, bne_iff_ne.mpr hother, Bool.true_and, contains_iff_mem]
      exact (mem_cons.mp hmem).resolve_left hother.symm
    rcases hcases with ⟨-, sig, hlast⟩ | ⟨hno, -⟩
    · rw [← place.here.site_nameOf, ← Site.inName]
      refine ⟨place.sourceAt_last (v := source _) last (by rw [hlast]; rfl) rfl,
        run.isInput (.inr ⟨_, rfl, ?_⟩), ?_⟩
      · refine place.later.inputs _ (last.frame.inputs _ ?_)
        rw [hlast]
        simp [call, Draft.bind, setStep, declare, has_put]
      · obtain ⟨concl⟩ := run.concluded
        rw [concl.calls]
        refine place.later.calls _ (last.frame.calls _ ?_)
        rw [hlast]
        simp [call, Keyed.has_put]
    · rw [hinside] at hno
      cases hno

theorem Fetches.follow (hf : Fetches set is t r i a p out) (hl : Linked set w)
    (hw : subAt w is = some t.flow) (h : Faithful set (n + 1) t r) (hi : i < (keysIn t.yml).length)
    (hp : (x, out) ∈ anchorsAt w p) :
    (∀ l, p = is ++ l → (r.tree.sourceAt i a).bind r.tree.follow = some (.output l out)) ∧
      (¬ is <+: p → (r.tree.sourceAt i a).bind r.tree.follow =
        some (.input (nameOf set t.flow i ++ sep ++ a))) := by
  have hclear : ∀ js v, subAt t.flow js = some v → Transparent set v := fun js v hv =>
    hl.clear (is ++ js) v (by rw [subAt_append hw]; exact hv)
  constructor
  · rintro l rfl
    obtain ⟨text, hsource, htext⟩ := hf.inside l rfl
    have hne : l ≠ [] := by
      rintro rfl
      rw [append_nil, hl.anchorsAt_sub hw] at hp
      cases hp
    rw [anchorsAt_append hw hne] at hp
    obtain ⟨js, m, v, rfl, hv, hm, hanchor⟩ := exists_of_mem_anchorsAt hp
    have hat : subAt w (is ++ js) = some v := by rw [subAt_append hw]; exact hv
    have htool : innerAt v.2 m = none := by
      cases hinner : innerAt v.2 m with
      | none => rfl
      | some u =>
        rw [(hl.silent _ v m u hat hinner).2.1] at hanchor
        cases hanchor
    obtain ⟨q, tool, hq, hleaf, hcwl, htool⟩ := h.tool hv (hclear js v hv) hm htool
    obtain ⟨tool', htool', hout⟩ := hl.outputs _ v m _ hat hm hanchor
    rw [htool] at htool'
    cases htool'
    rw [← hcwl] at hout
    rw [hsource, bind_some]
    exact h.follow hclear hv hm hq hleaf hout htext
  · intro hout
    obtain ⟨hsource, hinput, -⟩ := hf.outside hout
    obtain ⟨run⟩ := h.once
    rw [hsource, bind_some, PartTree.follow]
    have hnone := ((hclear [] _ rfl).placedRun run).amongSteps_input i a
    rw [← run.nameOf_eq (hclear [] _ rfl).known hi] at hnone
    rw [hnone]
    exact if_pos hinput

end Step

section Nested

variable {set : Setting} {n : Nat} {t : Task} {r : Compiled} {w : String × Doc} {is : List Nat}
  {names : List String}

theorem OnceRun.linkedAt (run : OnceRun (compileAt set n) set t r) (ht : LinkedTask set w is t)
    (hun : Unaltered r.tree t.flow)
    (hfree : ∀ q ∈ r.tree.nodes, ∀ p, ∀ y ∈ anchorsAt w p, ¬ q.IsInput (.str y.1))
    (hcalls : ∀ k, Keyed.has t.edgeCalls k → isReferenceName names k)
    (hnames : ∀ x ∈ referenceNames set (withinIn (n + 1) t.flow), x ∈ names)
    (hi : i < (keysIn t.yml).length) :
    ∃ place : StepAt run (fun j d =>
      LinkedDraft set w t j d ∧ Tabled names set t.flow d.edgeCalls d.given) i,
      LinkedStep w is place.here ∧ TabledStep names place.here := by
  rw [run.keysIn_eq] at hi
  obtain ⟨place⟩ := run.stepAt (P := fun j d =>
    LinkedDraft set w t j d ∧ Tabled names set t.flow d.edgeCalls d.given)
    (fun j d e here ⟨hd, hd'⟩ => ⟨(ht.step here hun hfree Faithful.calls hd).draft hd,
    (here.tabledStep hun hnames Faithful.tabled hd').last⟩)
    ⟨ht.start, hcalls, by simp [Draft.start]⟩ hi
  exact ⟨place, ht.step place.here hun hfree Faithful.calls place.holds.1,
    place.here.tabledStep hun hnames Faithful.tabled place.holds.2⟩

/-- A reference made in a workflow or inside of it leads to the output, when that stands there too;
else it leads to an input of the workflow, which waits for the output. -/
theorem Faithful.origin (h : Faithful set n t r) (ht : LinkedTask set w is t)
    (hfree : ∀ q ∈ r.tree.nodes, ∀ p, ∀ y ∈ anchorsAt w p, ¬ q.IsInput (.str y.1))
    (hcalls : ∀ k, Keyed.has t.edgeCalls k → isReferenceName names k)
    (hnames : ∀ x ∈ referenceNames set (withinIn n t.flow), x ∈ names)
    (hrefers : RefersTo w (is ++ js) i a p out) :
    (∀ l, p = is ++ l → r.tree.origin js i a = some (.output l out)) ∧
      (¬ is <+: p → r.tree.origin js i a = some (.input (raisedName set t.flow js i a)) ∧
        Keyed.has r.env.edgeCalls (raisedName set t.flow js i a)) := by
  -- the induction goes inwards to the step that refers, and a workflow at a time outwards again
  induction h using Faithful.induction generalizing is js with
  | @step _ t _ h run ih =>
    obtain ⟨z, x, hz, hi, hx, hp⟩ := id hrefers
    rw [subAt_append ht.within] at hz
    cases js with
    | nil =>
      cases hz
      obtain ⟨place, hstep, -⟩ := run.linkedAt ht h.kept hfree hcalls hnames hi
      rw [append_nil] at hrefers
      have hfetches := hstep.fetches hrefers
      obtain ⟨hinside, houtside⟩ := hfetches.follow ht.linked ht.within h hi hp
      rw [raisedName_nil]
      exact ⟨hinside, fun hout => ⟨houtside hout, (hfetches.outside hout).2.2⟩⟩
    | cons j js =>
      obtain ⟨v, hv, hz⟩ := bind_eq_some_iff.mp hz
      have hj : j < (keysIn t.yml).length := lt_of_innerAt (w := t.flow) hv
      obtain ⟨place, hstep, htabled⟩ := run.linkedAt ht h.kept hfree hcalls hnames hj
      obtain ⟨inner, rfl, hsub⟩ := place.here.exists_inner hv
      have hs := place.here.inner_faithful h.kept inner
      have hinner := ht.inner place.holds.1 inner
      have hbelow : RefersTo w (is ++ [j] ++ js) i a p out := by simpa using hrefers
      obtain ⟨hinside, houtside⟩ :=
        ih hs hinner (fun q hq => hfree q (PartTree.mem_nodes_sub hsub hq)) place.holds.2.calls
        (referenceNames_inner hv hnames) hbelow
      rw [PartTree.origin, hsub, bind_some]
      by_cases hpre : is ++ [j] <+: p
      · obtain ⟨l, rfl⟩ := hpre
        rw [hinside l rfl]
        refine ⟨fun l' hl' => ?_, fun hno => absurd ⟨[j] ++ l, by simp⟩ hno⟩
        rw [append_assoc] at hl'
        rw [← append_cancel_left hl']
        rfl
      · obtain ⟨horigin, hcalled⟩ := houtside hpre
        have hfetches := hstep.fetches_inner htabled inner hs.cls ⟨hinner.within, hbelow, hpre⟩
          (PartTree.origin_input horigin) hcalled
        obtain ⟨hin, hout⟩ := hfetches.follow ht.linked ht.within h hj hp
        rw [horigin, raisedName_cons (w := t.flow) hv]
        exact ⟨hin, fun hno => ⟨hout hno, (hfetches.outside hno).2.2⟩⟩

end Nested

def isSilent (yml : Doc) (i : Nat) : Bool := (sayingsAt yml i).all fun s => (s.map?).any isEmpty

theorem eq_of_isSilent {s : Doc} (h : (s.map?).any isEmpty) : s = .map [] := by
  obtain ⟨es, hes, hempty⟩ := any_eq_true _ _ |>.mp h
  cases s with
  | map fs =>
    cases hes
    rw [isEmpty_iff.mp hempty]
  | _ => cases hes

theorem silent_spec (hv : innerAt yml i = some v) (h : isSilent yml i) :
    providedAt yml i = [] ∧ anchorsOf (statedStep yml i) = [] ∧
      ∀ a, referenceAt yml i a = none := by
  obtain ⟨o, ho, hkey, hsub, -⟩ := innerAt_eq_some hv
  have hget : o.keys.getD i "" = v.1 := getD_of_getElem? hkey
  have hkeys : (keysIn yml).getD i "" = v.1 := by rw [keysIn, ho, elim_some, hget]
  have hall : ∀ s ∈ sayingsAt yml i, s = .map [] :=
    fun s hs => eq_of_isSilent (all_eq_true.mp h s hs)
  have hprovided : providedAt yml i = [] := by
    have hstated : statedAt yml i = [] := by
      rw [statedAt, flatMap_eq_nil_iff]
      intro s hs
      rw [hall s hs]
      rfl
    rw [providedAt, hstated, hkeys, if_neg]
    · rfl
    · intro heq
      rw [heq] at hsub
      cases hsub
  simp only [sayingsAt, ho, elim_some, hget] at hall
  rw [if_pos hsub] at hall
  have hgiven : (under? (o.steps.getD i .null) "parentargs").getD .null = .map [] :=
    hall _ mem_cons_self
  have hnote : noteArgs (noteOf yml i) = .map [] := by
    have hstated := hall _ (mem_cons_of_mem _ mem_cons_self)
    rw [noteOf, hv, ho, elim_some, elim_some, hkeys]
    split
    · exact hstated
    · rfl
  -- the step is left with its key
  have hstep : statedStep yml i = .null ∨ ∃ id, statedStep yml i = .map [(.str "id", .str id)] := by
    rw [statedStep, ho, hkeys, if_pos hsub, elim_some]
    cases hgive : givenStep (o.steps.getD i .null) (noteOf yml i) with
    | error e => exact .inl rfl
    | ok step =>
      obtain ⟨id, -, args, hargs, hstep⟩ := of_bind₂ hgive
      rw [field_eq_ok] at hargs
      rw [hargs, getD_some] at hgiven
      subst hgiven
      rw [hnote] at hstep
      obtain ⟨merged, hmerged, hstep⟩ := of_bind hstep
      cases hmerged
      cases hstep
      exact .inr ⟨id, rfl⟩
  refine ⟨hprovided, ?_, fun a => ?_⟩
  · rcases hstep with h | ⟨id, h⟩ <;> rw [h] <;> rfl
  · have hnone : get? (bindings (statedStep yml i)) a = none := by
      rcases hstep with h | ⟨id, h⟩ <;> rw [h] <;> rfl
    rw [referenceAt, hnone]
    split <;> rfl

/-- What explicit edges need of a workflow. Stems differ, and names can be taken apart; tools are
known by the keys of their steps, and nothing is said of steps that are workflows; a name is given
once, to an output of a tool, and before it is referred to. -/
@[mk_iff]
structure Connectable (set : Setting) (w : String × Doc) : Prop where
  stems : ((pathsIn (w.2.depth + 1) w).map fun is => (subAt w is).map fun v => Path.stem v.1).Nodup
  plain : ∀ v ∈ within w.1 w.2, Text.isPlain (Path.stem v.1) ∧ ∀ key ∈ keysIn v.2, Text.isPlain key
  tools : ∀ v ∈ within w.1 w.2, ∀ id ∈ toolIds v.2, id.space = globalSpace ∧ set.tools.has id
  outputs : ∀ v ∈ within w.1 w.2, under? v.2 "outputs" = none
  silent : ∀ v ∈ within w.1 w.2, ∀ i < (keysIn v.2).length, (innerAt v.2 i).isSome → isSilent v.2 i
  anchors : ∀ v ∈ within w.1 w.2, ∀ i < (keysIn v.2).length, ∀ x ∈ anchorsOf (statedStep v.2 i),
    Text.contains x.2 sep = false ∧
      ∃ tool ∈ set.tools.get? ⟨Path.stem ((keysIn v.2).getD i ""), globalSpace⟩,
        x.2 ∈ outputTexts tool.cwl
  inputs : ∀ v ∈ within w.1 w.2, ∀ i < (keysIn v.2).length, ∀ a ∈ referringAt v.2 i,
    Text.contains a sep = false
  once : ((stepPaths w).flatMap fun p => (anchorsAt w p).map (·.1)).Nodup
  before : ∀ is ∈ pathsIn (w.2.depth + 1) w, ∀ v ∈ subAt w is, ∀ i < (keysIn v.2).length,
    ∀ a ∈ referringAt v.2 i, ∀ x ∈ referenceAt v.2 i a, ∃ p ∈ stepPaths w, p < is ++ [i] ∧
    ∃ y ∈ anchorsAt w p, y.1 = x.text

set_option synthInstance.maxSize 1000 in
instance (set : Setting) (w : String × Doc) : Decidable (Connectable set w) :=
  decidable_of_iff' _ (connectable_iff set w)

section Connectable

variable {set : Setting} {w : String × Doc}

theorem Connectable.anchor_inj (h : Connectable set w) (hx : x ∈ anchorsAt w p)
    (hy : y ∈ anchorsAt w q) (hxy : x.1 = y.1) : p = q ∧ x.2 = y.2 := by
  have hmem : ∀ {p x}, x ∈ anchorsAt w p → p ∈ stepPaths w := by
    intro p x hx
    obtain ⟨is, i, v, rfl, hv, hi, -⟩ := exists_of_mem_anchorsAt hx
    exact mem_stepPaths hv hi
  obtain ⟨heach, hpairs⟩ := nodup_flatMap.mp h.once
  have hpq : p = q := by
    by_contra hne
    have : Std.Symm (Function.onFun List.Disjoint fun p => (anchorsAt w p).map (·.1)) :=
      ⟨fun _ _ h => disjoint_symm h⟩
    have hdisjoint := hpairs.forall (hmem hx) (hmem hy) hne
    exact hdisjoint (mem_map_of_mem hx) (hxy ▸ mem_map_of_mem hy)
  subst hpq
  exact ⟨rfl, congrArg Prod.snd (inj_on_of_nodup_map (heach p (hmem hx)) hx hy hxy)⟩

theorem Connectable.linked (h : Connectable set w)
    (hnames : ∀ is v, subAt w is = some v → ∀ i < (keysIn v.2).length,
      nameOf set v i = stepName (Path.stem v.1) i ((keysIn v.2).getD i "") ∧
      (keysIn v.2).getD i "" ≠ "") : Linked set w where
  named is v hv := by
    obtain ⟨hstem, hkeys⟩ := h.plain v (mem_within_subAt hv)
    exact ⟨fun i hi => (hnames is v hv i hi).1, hstem,
      fun i hi => ⟨hkeys _ (mem_of_getElem? (getElem?_getD hi "")), (hnames is v hv i hi).2⟩⟩
  stems is js v u hv hu hstem := by
    refine inj_on_of_nodup_map h.stems (mem_pathsIn (Nat.lt_succ_self _) hv)
      (mem_pathsIn (Nat.lt_succ_self _) hu) ?_
    rw [hv, hu, map_some, map_some, hstem]
  silent is v i u hv hu :=
    silent_spec hu (h.silent v (mem_within_subAt hv) i (lt_of_innerAt hu) (by rw [hu]; rfl))
  once p q x y hx hy hxy := h.anchor_inj hx hy hxy
  slots p x hx := by
    obtain ⟨is, i, v, -, hv, hi, hx⟩ := exists_of_mem_anchorsAt hx
    exact (h.anchors v (mem_within_subAt hv) i hi x hx).1
  inputs is v i a x hv hi hx := h.inputs v (mem_within_subAt hv) i hi a (mem_referringAt hx)
  clear is v hv :=
    ⟨fun id hid => (h.tools v (mem_within_subAt hv) id hid).2, fun id hid =>
      (h.tools v (mem_within_subAt hv) id hid).1,
      h.outputs v (mem_within_subAt hv)⟩
  outputs is v i x hv hi hx := by
    obtain ⟨-, tool, htool, hout⟩ := h.anchors v (mem_within_subAt hv) i hi x hx
    exact ⟨tool, htool, hout⟩

end Connectable

/-- Explicit edges connect the right two points across any nesting: the source of an input that
refers to a name leads, outwards to the workflow that holds both ends and then inwards, to the
output that has the name. -/
theorem compile_connected {set : Setting} {path : String} {yml : Doc} {graph : Graph} {r : Compiled}
    (hedges : Connectable set (path, yml)) (h : (compile set (.root path yml graph)).Yields r)
    (hun : Unaltered r.tree (path, yml))
    (hfree : ∀ q ∈ r.tree.nodes, ∀ p ∈ stepPaths (path, yml), ∀ y ∈ anchorsAt (path, yml) p,
      ¬ q.IsInput (.str y.1)) :
    ∀ is w, subAt (path, yml) is = some w →
      ∀ i < (keysIn w.2).length, ∀ a x, referenceAt w.2 i a = some x →
      ∃ p out, (x.text, out) ∈ anchorsAt (path, yml) p ∧
      r.tree.origin is i a = some (.output p out) := by
  obtain ⟨s, hs, rfl⟩ := h.of_map
  intro is w hw i hi a x hx
  have hlinked : Linked set (path, yml) := hedges.linked fun js v hv =>
    Faithful.named ⟨hs, hun⟩ (fun ks u hu id hid =>
      (hedges.tools u (mem_within_subAt hu) id hid).2) js v hv
  have hbefore := fun js v j b y (hv : subAt (path, yml) js = some v) hj hy =>
    hedges.before js (mem_pathsIn (Nat.lt_succ_self _) hv) v hv j hj b (mem_referringAt hy) y hy
  have htask : LinkedTask set (path, yml) [] (.root path yml graph) := by
    refine ⟨hlinked, rfl, rfl, by simp [Task.root], by simp [Task.root], ?_⟩
    intro js v j b y hv hj hy
    obtain ⟨p, -, hlt, hanchor⟩ := hbefore js v j b y hv hj hy
    exact .inr ⟨p, hanchor, hlt⟩
  obtain ⟨p, -, -, ⟨name, out⟩, hanchor, rfl⟩ := hbefore is w i a x hw hi hx
  refine ⟨p, out, hanchor, ?_⟩
  have hfree' : ∀ q ∈ s.tree.nodes, ∀ p, ∀ y ∈ anchorsAt (path, yml) p, ¬ q.IsInput (.str y.1) := by
    intro q hq p y hy
    obtain ⟨js, j, v, rfl, hv, hj, -⟩ := exists_of_mem_anchorsAt hy
    exact hfree q hq _ (mem_stepPaths hv hj) y hy
  exact (Faithful.origin ⟨hs, hun⟩ htask hfree' (fun k hk => by cases hk) (fun x hx => hx)
    ⟨w, x, hw, hi, hx, hanchor⟩).1 p rfl

namespace Sample

def crossing : Doc :=
  workflow [inner "one.wic" (workflow [step "echo" [("in", Doc.obj [("m", inline "x")]),
    ("out", .list [Doc.obj [("o", anchor "a")]])]]), inner "two.wic"
    (workflow [inner "three.wic" (workflow [step "cat" [("in", Doc.obj [("f", reference "a")])]])])]

end Sample

open Sample in
theorem compile_connected_crossing :
    ∃ r, (compile (setting [echoTool, catTool])
        (.root "wf.wic" crossing (Graph.empty "" ""))).Yields r ∧
      ∃ w, subAt ("wf.wic", crossing) [1, 0] = some w ∧ referenceAt w.2 0 "f" = some (.str "a") ∧
      ∃ p out, ("a", out) ∈ anchorsAt ("wf.wic", crossing) p ∧
      r.tree.origin [1, 0] 0 "f" = some (.output p out) := by
  have hsome : (compiled (setting [echoTool, catTool]) "wf.wic" crossing).any (fun r =>
        decide (∀ q ∈ r.tree.nodes, ∀ p ∈ stepPaths ("wf.wic", crossing),
          ∀ y ∈ anchorsAt ("wf.wic", crossing) p, ¬ q.IsInput (.str y.1))) = true := by
    decide +kernel
  obtain ⟨r, hr, hfree⟩ := Logged.yields_of_any hsome
  obtain ⟨w, hw, hlt, href⟩ :=
    exists_reference ("wf.wic", crossing) [1, 0] 0 "f" "a" (by decide +kernel)
  refine ⟨r, hr, w, hw, href, ?_⟩
  exact compile_connected (by decide +kernel) hr
    (compile_unaltered rfl hr) (of_decide_eq_true hfree) [1, 0] w hw 0 hlt "f" _ href

namespace Sample

def printTool : StepId × Tool := tool "print" [("m", text)] [("t", text)]

def redirected : Doc :=
  workflow [step "print" [("in", Doc.obj [("m", inline "x")]),
    ("out", .list [Doc.obj [("t", anchor "home")]])],
    step interpreterKey [("in", Doc.obj [("homedir", reference "home")])]]

end Sample

open Sample in
/-- A step that starts a compilation of its own is told where to find things; what it says of these
inputs itself does not count. -/
theorem not_compile_connected :
    ¬ ∀ (set : Setting) (path : String) (yml : Doc) (graph : Graph) (r : Compiled),
      Connectable set (path, yml) → (compile set (.root path yml graph)).Yields r → Unaltered r.tree
      (path, yml) → (∀ q ∈ r.tree.nodes, ∀ p ∈ stepPaths (path, yml), ∀ y ∈ anchorsAt (path, yml) p,
      ¬ q.IsInput (.str y.1)) → ∀ is w, subAt (path, yml) is = some w →
      ∀ i < (keysIn w.2).length, ∀ a v x, Entries.get? (bindings (statedStep w.2 i)) a = some v →
      under? v aliasKey = some x → ∃ p out, (x.text, out) ∈ anchorsAt (path, yml) p ∧
      r.tree.origin is i a = some (.output p out) := by
  intro h
  have hsome : (compiled (setting [printTool, interpreterTool]) "wf.wic" redirected).any (fun r =>
      decide (∀ q ∈ r.tree.nodes, ∀ p ∈ stepPaths ("wf.wic", redirected),
        ∀ y ∈ anchorsAt ("wf.wic", redirected) p, ¬ q.IsInput (.str y.1)) &&
      decide (r.tree.origin [] 1 "homedir" =
        some (.input "wf__step__2__cwl_subinterpreter___homedir"))) = true := by
    decide +kernel
  obtain ⟨r, hr, hr'⟩ := Logged.yields_of_any hsome
  obtain ⟨hfree, horigin⟩ := Bool.and_eq_true_iff.mp hr'
  have hsaid : ((Entries.get? (bindings (statedStep redirected 1)) "homedir").bind
      (under? · aliasKey)).isSome = true := by
    decide +kernel
  obtain ⟨x, hx⟩ := Option.isSome_iff_exists.mp hsaid
  obtain ⟨v, hv, hx⟩ := Option.bind_eq_some_iff.mp hx
  obtain ⟨p, out, -, hout⟩ := h _ _ _ _ r (by decide +kernel) hr
    (compile_unaltered rfl hr) (of_decide_eq_true hfree) [] _ rfl 1
    (by decide +kernel) "homedir" v x hv hx
  rw [of_decide_eq_true horigin] at hout
  cases hout

end WorkflowInference.Compile
