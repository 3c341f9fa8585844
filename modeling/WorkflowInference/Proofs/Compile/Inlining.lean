import WorkflowInference.Proofs.Compile.Feeds
import WorkflowInference.Proofs.Workflow.Inlining

/-!
Inlining and what tools are fed with. Inlining a workflow puts its steps in the place of the step
that runs it, so the tools stand in the same order as before. What they are fed with depends on that
order only, and not on the workflows around them.
-/
namespace WorkflowInference.Compile

open Workflow Entries Result Logged
open List hiding getD

variable {path key : String} {yml wic sub r : Doc} {i : Nat} {xs : List Doc}

def Silent (wic : Doc) : Prop := wic = .map [] ∨ wic = .map [(.str "steps", .map [])]

theorem Bare.silent (h : Bare path yml) (hwic : yml.fieldD "wic" (.map []) = .ok wic) :
    Silent wic := by
  rw [fieldD_eq_ok hwic]
  refine h.wic.imp id fun hsteps => ?_
  rw [hsteps]
  rfl

theorem Silent.implementations? (h : Silent wic) : Tree.implementations? wic = .ok none := by
  rcases h with rfl | rfl <;> rfl

theorem Silent.notesIn (h : Silent wic) :
    Workflow.notesIn (Doc.obj [("wic", wic)]) = .ok (.map []) := by
  rcases h with rfl | rfl <;> rfl

theorem liftNotes_silent {inner : Doc} (hwic : Silent wic)
    (hsub : sub.fieldD "wic" (.map []) = .ok inner) (hinner : Silent inner)
    (h : liftNotes wic i key sub = .ok r) :
    r = Doc.obj [("steps", Doc.obj [(placeKey i key, Doc.obj [("wic", inner)])])] := by
  unfold liftNotes at h
  rw [hsub] at h
  rcases hwic with rfl | rfl <;> rcases hinner with rfl | rfl <;> exact (Except.ok.inj h).symm

theorem inlineNotes_single {inner : Doc} {stem : String} {count : Int} (hinner : Silent inner)
    (h : inlineNotes
      (Doc.obj [("wic", Doc.obj [("steps", Doc.obj [(placeKey i key, Doc.obj [("wic", inner)])])])])
      [stepName stem i key] count = .ok r) : r = .map [(.str "steps", .map [])] := by
  obtain ⟨-, -, places, hplaces, tag, htag, h⟩ := of_bind₃ h
  have hone : places = [((i : Int), key)] := by
    cases mapM_eq_ok hplaces with
    | cons hplace hrest =>
      cases hrest
      obtain ⟨place, hread, hplace⟩ := of_bind hplace
      obtain ⟨hindex, hkey⟩ := StepName.read_place hread
      rw [← pure_eq_ok.mp hplace, hindex, hkey]
  subst hone
  unfold inlineNotesAt at htag
  dsimp only at htag
  generalize placeKey i key = key at htag
  obtain ⟨notes, hnotes, htag⟩ := of_bind htag
  obtain rfl : Doc.obj [(key, Doc.obj [("wic", inner)])] = notes := Except.ok.inj hnotes
  obtain ⟨sub, hsub, htag⟩ := of_bind htag
  obtain rfl : sub = Doc.obj [("wic", inner)] := by
    rw [fieldD_eq_ok hsub]
    simp [under?, Doc.obj, Doc.map?, get?]
  rw [hinner.notesIn] at htag
  have hrest : remove [(Doc.str key, Doc.obj [("wic", inner)])] key = [] := by simp [remove]
  obtain ⟨outer, houter, htag⟩ := of_bind (htag : (do
    let outer ← reindex (remove [(Doc.str key, Doc.obj [("wic", inner)])] key) (i + 1) (count - 1)
    let notes ← (Doc.map []).merge (.map outer)
    setNotes (Doc.obj [("wic", Doc.obj [("steps", Doc.obj [(key, Doc.obj [("wic", inner)])])])])
      notes) = .ok tag)
  rw [hrest] at houter
  cases houter
  cases htag
  exact (Except.ok.inj h).symm

theorem inlineNotes_deeper {ns m : String} {path : Namespaces} {count : Int} (hwic : Silent wic)
    (h : inlineNotes (Doc.obj [("wic", wic)]) (ns :: m :: path) count = .ok r) : r = wic := by
  obtain ⟨-, -, places, hplaces, tag, htag, h⟩ := of_bind₃ h
  have hplaces := mapM_eq_ok hplaces
  cases hplaces with
  | @cons _ p _ ps _ hrest =>
    cases hrest with
    | @cons _ q _ qs _ hrest =>
      have htag : tag = Doc.obj [("wic", wic)] := by
        rcases hwic with rfl | rfl <;> exact (Except.ok.inj htag).symm
      subst htag
      exact (Except.ok.inj h).symm

theorem applyArgs_bare (hbare : Bare path sub) (hsteps : under? sub "steps" = some (.list steps))
    (h : (applyArgs sub (.map [])).Yields sub') :
    ∃ es, sub' = .map es ∧ get? es "steps" = some (.list steps) ∧
      get? es "wic" = under? sub "wic" := by
  obtain ⟨inputs, hinputs, h⟩ := h.of_lift
  obtain rfl : inputs = .map [] := (fieldD_eq_ok hinputs).trans hbare.inputs
  obtain ⟨yml, hyml, h⟩ := h.of_lift
  obtain ⟨es, hes, hyml⟩ := of_bind hyml
  rw [entries_eq_ok] at hes
  rw [hes, under?_map] at hsteps
  rw [← pure_eq_ok.mp hyml] at h
  obtain ⟨xs, hxs, h⟩ := h.of_lift
  obtain ⟨d, hd, hxs⟩ := of_bind hxs
  rw [field_eq_ok, under?_map, get?_remove_ne (by decide), hsteps] at hd
  cases hd
  cases hxs
  obtain ⟨names, hnames, h⟩ := h.of_lift
  cases hnames
  obtain ⟨given, hgiven, h⟩ := h.of_lift
  cases hgiven
  obtain ⟨⟨⟩, -, entries, hentries, h⟩ := h.of_bind₂
  cases yields_lift.mp hentries
  obtain ⟨ys, hys, h⟩ := h.of_lift
  cases hys
  rw [yields_lift] at h
  obtain ⟨fs, hfs, h⟩ := of_bind h
  cases hfs
  refine ⟨_, (pure_eq_ok.mp h).symm, get?_put_self, ?_⟩
  rw [hes, under?_map, get?_put_ne (by decide), get?_remove_ne (by decide)]

theorem Plain.list (h : ∀ x ∈ xs, Plain x) : Plain (.list xs) := by
  constructor
  · rw [Doc.mentions, Doc.mentionsItem_eq_any, any_eq_false]
    exact fun x hx => by simp [(h x hx).no_alias]
  · rw [Doc.mentions, Doc.mentionsItem_eq_any, any_eq_false]
    exact fun x hx => by simp [(h x hx).no_anchor]

theorem Lists.of_steps {set : Setting} {es : Entries} {lss : List (List Leaf)}
    (hbare : Bare path (.map es)) (hwic : Silent wic) (hplain : ∀ x ∈ xs, Plain x)
    (heach : List.Forall₂ (ListsStep set) xs lss) :
    Lists set path (.map (put (put es "steps" (.list xs)) "wic" wic)) lss.flatten := by
  have hkept : ∀ l, l ≠ "steps" → l ≠ "wic" →
      under? (.map (put (put es "steps" (.list xs)) "wic" wic)) l = under? (.map es) l := by
    intro l hsteps hwic
    rw [under?_map, under?_map, get?_put_ne hwic.symm, get?_put_ne hsteps.symm]
  have hsilent : Plain wic := by
    rcases hwic with rfl | rfl
    · exact .empty
    · exact Plain.empty.put (k := "steps") (by decide) .empty
  refine .workflow ⟨?_, ?_, ?_, ?_, hbare.noLog⟩ ?_ heach
  · exact (hbare.plain.put (by decide) (.list hplain)).put (by decide) hsilent
  · rw [under?_map, get?_put_self]
    exact hwic.imp id (congrArg some)
  · rw [hkept _ (by decide) (by decide)]
    exact hbare.inputs
  · rw [hkept _ (by decide) (by decide)]
    exact hbare.outputs
  · rw [under?_map, get?_put_ne (by decide), get?_put_self]

section Tree

variable {set : Setting} {t t' : Tree} {ls : List Leaf} {n : Nat}

theorem Lists.steps (h : Lists set path yml ls) :
    ∃ xs lss, under? yml "steps" = some (.list xs) ∧ List.Forall₂ (ListsStep set) xs lss ∧
      ls = lss.flatten := by
  obtain ⟨-, hsteps, heach⟩ := h
  exact ⟨_, _, hsteps, heach, rfl⟩

structure SubStep (set : Setting) (t : Tree) (ls : List Leaf) (i : Nat) (x : Doc) (key : String)
    (sub : Doc) where
  entries : Entries
  yml : t.yml = .map entries
  bare : Bare t.id.stem t.yml
  steps : List Doc
  steps_eq : under? t.yml "steps" = some (.list steps)
  lists : List (List Leaf)
  flatten : ls = lists.flatten
  each : List.Forall₂ (ListsStep set) steps lists
  step : steps[i]? = some x
  inner : List Leaf
  inner_eq : lists[i]? = some inner
  args : under? x "parentargs" = some (.map [])
  noLog : namesLog key = false
  subLists : Lists set key sub inner

theorem Lists.subStep (h : Lists set t.id.stem t.yml ls) (hps : Tree.steps t.yml = .ok ps)
    (hi : ps[i]? = some (x, key)) (hkey : isSubKey key) (hsub : under? x "subtree" = some sub) :
    ∃ here : SubStep set t ls i x key sub, ps.map (·.1) = here.steps := by
  obtain ⟨xs, lss, hsteps, heach, hflat⟩ := h.steps
  obtain ⟨es, hes, -⟩ := mem_of_under? hsteps
  obtain ⟨names, rfl, hnames⟩ := steps_zip hps hsteps
  obtain ⟨hx, hname⟩ := getElem?_zip_eq_some.mp hi
  have hstep : stepKey x = .str key := by
    have hkeys := congrArg (·[i]?) hnames
    simpa [hx, hname] using hkeys
  obtain ⟨inner, hinner, hlists⟩ := forall₂_at heach hx
  have hfst : (xs.zip names).map (·.1) = xs := by
    have hlen := congrArg length hnames
    rw [length_map, length_map] at hlen
    exact map_fst_zip (Nat.le_of_eq hlen)
  cases hlists with
  | tool step =>
    rw [Doc.str.inj (hstep.symm.trans step.key), step.isTool] at hkey
    cases hkey
  | inner hkey' _ hlog hsub' hargs lists =>
    cases Doc.str.inj (hstep.symm.trans hkey')
    cases hsub.symm.trans hsub'
    exact ⟨⟨es, hes, h.bare, xs, hsteps, lss, hflat, heach, hx, inner, hinner, hargs, hlog,
      lists⟩, hfst⟩

theorem Lists.unimplemented (hl : Lists set t.id.stem t.yml ls) : Unimplemented t.yml := by
  induction hn : t.yml.size using Nat.strong_induction_on generalizing t ls with
  | _ n ih =>
    subst hn
    refine ⟨fun wic impls hwic himpls => ?_, fun ps s sub hps hs hkey hsub => ?_⟩
    · rw [(hl.bare.silent hwic).implementations?] at himpls
      cases himpls
      rfl
    · obtain ⟨i, hi⟩ := getElem?_of_mem hs
      obtain ⟨here, -⟩ := hl.subStep hps hi hkey hsub
      exact ih sub.size (size_subtree hps hs hsub) (t := ⟨⟨s.2, t.id.space⟩, sub⟩) here.subLists rfl

theorem SubStep.replace {x : Doc} (here : SubStep set t ls i x key sub) {lss : List (List Leaf)}
    (hplain : ∀ x ∈ xs, Plain x) (heach : List.Forall₂ (ListsStep set) xs lss)
    (hflat : lss.flatten = here.inner) (hwic : Silent wic) :
    Lists set t.id.stem (.map (put (put here.entries "steps"
      (.list (here.steps.take i ++ xs ++ here.steps.drop (i + 1)))) "wic" wic)) ls := by
  have hsplit : here.lists = here.lists.take i ++ here.inner :: here.lists.drop (i + 1) := by
    obtain ⟨hlt, heq⟩ := List.getElem?_eq_some_iff.mp here.inner_eq
    rw [← heq, ← drop_eq_getElem_cons hlt, take_append_drop]
  have hls : (here.lists.take i ++ lss ++ here.lists.drop (i + 1)).flatten = ls := by
    have hflatten := here.flatten
    rw [hsplit] at hflatten
    exact Eq.trans (by simp [hflat]) hflatten.symm
  have hold : ∀ y ∈ here.steps, Plain y :=
    fun y hy => (here.bare.plain.under? here.steps_eq).inside (.item hy (.refl y))
  have hnew : ∀ x ∈ here.steps.take i ++ xs ++ here.steps.drop (i + 1), Plain x := by
    intro y hy
    rw [mem_append, mem_append] at hy
    rcases hy with (hy | hy) | hy
    · exact hold y (mem_of_mem_take hy)
    · exact hplain y hy
    · exact hold y (mem_of_mem_drop hy)
  have hlists := Lists.of_steps (here.yml ▸ here.bare) hwic hnew
    (rel_append (rel_append (forall₂_take i here.each) heach) (forall₂_drop (i + 1) here.each))
  rwa [hls] at hlists

theorem inlineIn_lists {path : Namespaces} {count : Nat} (hl : Lists set t.id.stem t.yml ls)
    (hpath : LeadsIn t path) (h : (inlineIn n t path).Yields (t', count)) :
    t'.id = t.id ∧ Lists set t.id.stem t'.yml ls := by
  induction n generalizing t t' ls path count with
  | zero => exact absurd h yields_throw
  | succ n ih =>
    cases hpath with
    | here =>
      cases yields_pure.mp h
      exact ⟨rfl, hl⟩
    | @step _ ps i x sub key path hps hi hkey hsub rest =>
      obtain ⟨here, hdocs⟩ := hl.subStep hps hi hkey (field_eq_ok.mp hsub)
      obtain ⟨es, wic, args, ys, wic', hes, hwic, hargs, rfl, hin⟩ :=
        inlineIn_cases (fun _ _ => hl.unimplemented.own) hps hi hsub h
      have hsilent := hl.bare.silent hwic
      cases here.yml.symm.trans hes
      cases here.args.symm.trans hargs
      rw [hdocs, spliced]
      obtain ⟨xs, lss, hxs, heach, hflat⟩ := here.subLists.steps
      cases hin with
      | here given steps lift notes =>
        obtain ⟨fs, rfl, hfs, hfs'⟩ := applyArgs_bare here.subLists.bare hxs given
        rw [stepDocs, field_eq_ok.mpr (show under? (.map fs) "steps" = _ from hfs)] at steps
        cases steps
        have hinner : Silent (getD fs "wic" (.map [])) := by
          rw [getD, hfs']
          exact here.subLists.bare.wic.imp id fun hsome => by rw [hsome]; rfl
        rw [liftNotes_silent hsilent rfl hinner lift] at notes
        refine ⟨rfl,
          here.replace (fun y hy => ?_) heach hflat.symm (.inr (inlineNotes_single hinner notes))⟩
        exact (here.subLists.bare.plain.under? hxs).inside (.item hy (.refl y))
      | inside inside notes =>
        obtain ⟨hid, hlists⟩ := ih here.subLists rest inside
        rw [inlineNotes_deeper hsilent notes]
        refine ⟨rfl, here.replace (fun y hy => ?_) (.cons ?_ .nil) flatten_singleton hsilent⟩
        · rw [mem_singleton.mp hy]
          refine Plain.of_entries ?_
          simp [Doc.eq, Plain.str, Plain.empty, Yaml.aliasKey, Yaml.anchorKey, hlists.bare.plain]
        · exact .inner rfl hkey here.noLog rfl rfl hlists

end Tree

section Compiled

variable {set : Setting} {ls : List Leaf}

theorem compile_feed {graph : Graph} {r : Compiled} (hnames : set.options.namingConventions = false)
    (htools : ∀ e ∈ set.tools, ∀ a ∈ namesIn e.2.cwl "inputs", isPathName a = false)
    (hl : Lists set path yml ls) (hclear : ∀ l ∈ ls, l.Clear set)
    (h : (compile set (.root path yml graph)).Yields r)
    (hinsert : set.options.insertSteps → Unaltered r.tree (path, yml)) :
    r.tree.leaves.length = ls.length ∧ ∀ k a, r.feed k a = flatFeed set ls k a := by
  have hun : Unaltered r.tree (path, yml) := by
    cases hno : set.options.insertSteps with
    | false => exact compile_unaltered hno h
    | true => exact hinsert hno
  obtain ⟨s, hs, rfl⟩ := h.of_map
  obtain ⟨outs, hbrings⟩ := Faithful.brings ⟨hs, hun⟩ hl
  refine ⟨hbrings.length, fun k a => ?_⟩
  exact Faithful.feed ⟨hs, hun⟩ (by simp [Task.root, Keyed.has]) hl hclear htools hnames k a

/-- Unless steps were put in, inlining a workflow does not change what the tools are fed with. -/
theorem compile_inlined {t t' : Tree} {path : Namespaces} {paths : List Namespaces} {count : Nat}
    {graph graph' : Graph} {r r' : Compiled} (hnames : set.options.namingConventions = false)
    (htools : ∀ e ∈ set.tools, ∀ a ∈ namesIn e.2.cwl "inputs", isPathName a = false)
    (hl : Lists set t.id.stem t.yml ls) (hclear : ∀ l ∈ ls, l.Clear set)
    (hpaths : inlineable t = .ok paths) (hpath : path ∈ paths)
    (hin : (inlineAt t path).Yields (t', count))
    (h : (compile set (.root t.id.stem t.yml graph)).Yields r)
    (h' : (compile set (.root t'.id.stem t'.yml graph')).Yields r')
    (hinsert : set.options.insertSteps = true → Unaltered r.tree (t.id.stem, t.yml))
    (hinsert' : set.options.insertSteps = true → Unaltered r'.tree (t'.id.stem, t'.yml)) :
    r.tree.leaves.length = r'.tree.leaves.length ∧ ∀ k a, r.feed k a = r'.feed k a := by
  obtain ⟨-, rest, rfl, hleads⟩ := (inlineableIn_leads hl.unimplemented hpaths).2 _ hpath
  obtain ⟨hid, hl'⟩ := inlineIn_lists hl hleads hin
  rw [← hid] at hl'
  obtain ⟨hlen, hfeed⟩ := compile_feed hnames htools hl hclear h hinsert
  obtain ⟨hlen', hfeed'⟩ := compile_feed hnames htools hl' hclear h' hinsert'
  exact ⟨hlen.trans hlen'.symm, fun k a => (hfeed k a).trans (hfeed' k a).symm⟩

end Compiled

namespace Sample

def leaf (key : String) (ins : List (String × Doc)) : Leaf := ⟨key, step key [("in", Doc.obj ins)]⟩

def around (ls ls' : List Leaf) : Tree :=
  ⟨⟨"wf.wic", globalSpace⟩,
    workflow (ls.map Leaf.step ++ [inner "sub.wic" (workflow (ls'.map Leaf.step))])⟩

def inlined (t : Tree) (path : Namespaces) : Option (Tree × Nat) :=
  ((inlineAt t path).outcome {}).1.toOption

theorem leaf_toolStep {set : Setting} {stem : String} {ins outs as : List (String × Doc)}
    (hsub : isSubKey key = false) (hstem : Path.stem key = key)
    (hknown : set.tools.get? ⟨key, globalSpace⟩ = some (tool stem ins outs).2)
    (hlog : namesLog key = false) (houts : ∀ o ∈ outs, namesLog o.1 = false)
    (hdistinct : (outs.map (·.1)).Nodup) : ToolStep set (leaf key as) := by
  rw [← hstem] at hknown
  have htool : (leaf key as).tool set = (tool stem ins outs).2.cwl := by
    rw [Leaf.tool, leaf, hknown]; rfl
  have hall : (leaf key as).outs set = outs.map fun o => (.str o.1, o.2) := by
    rw [Leaf.outs, htool]; rfl
  refine ⟨rfl, hsub, ?_, ?_, ?_, ?_, ?_, hlog, rfl⟩
  · rw [Registry.has, leaf, hknown]
    rfl
  · rw [htool]
    rfl
  · rw [hall, htool]
    rfl
  · rw [hall]
    intro e he
    obtain ⟨o, ho, rfl⟩ := mem_map.mp he
    exact ⟨o.1, rfl, houts o ho⟩
  · have hkeys := List.Nodup.map (f := Doc.str) (fun _ _ h => Doc.str.inj h) hdistinct
    rw [map_map] at hkeys
    rw [hall, map_map]
    exact hkeys

theorem around_lists {set : Setting} {ls ls' : List Leaf} (hls : ∀ l ∈ ls, ToolStep set l)
    (hls' : ∀ l ∈ ls', ToolStep set l) (hplain : Plain (around ls ls').yml) :
    Lists set "wf.wic" (around ls ls').yml (ls ++ ls') := by
  have htools : ∀ ls : List Leaf, (∀ l ∈ ls, ToolStep set l) →
      List.Forall₂ (ListsStep set) (ls.map Leaf.step) (ls.map fun l => [l]) := by
    intro ls hls
    rw [forall₂_map_left_iff, forall₂_map_right_iff, forall₂_same]
    exact fun l hl => .tool (hls l hl)
  have hflat : ∀ ls : List Leaf, (ls.map fun l => [l]).flatten = ls :=
    fun ls => by simp [← flatMap_def]
  have hinside : Plain (inner "sub.wic" (workflow (ls'.map Leaf.step))) :=
    (hplain.under? (k := "steps") rfl).inside (.item (mem_append_right _ mem_cons_self) (.refl _))
  have hinner : Lists set "sub.wic" (workflow (ls'.map Leaf.step)) (ls'.map fun l => [l]).flatten :=
    .workflow ⟨hinside.under? (k := "subtree") rfl, .inl rfl, rfl, rfl, by decide +kernel⟩ rfl
      (htools ls' hls')
  have hstep : ListsStep set (inner "sub.wic" (workflow (ls'.map Leaf.step))) (ls'.map fun l =>
      [l]).flatten :=
    .inner rfl (by decide) (by decide) rfl rfl hinner
  have hbare : Bare "wf.wic" (around ls ls').yml := ⟨hplain, .inl rfl, rfl, rfl, by decide +kernel⟩
  have hall := Lists.workflow hbare rfl (rel_append (htools ls hls) (.cons hstep .nil))
  simpa [hflat] using hall

def reaching : Tree := around [leaf "echo" [("m", inline "x")]] [leaf "cat" []]

def tellTool : StepId × Tool := tool "tell" [("m", text)] [("o", file), ("t", text)]

def naming : Tree :=
  around [] [leaf "tell" [("m", inline "x")], leaf "tell" [("m", .str "sub__step__1__tell/t")]]

def rawSetting : Setting := { setting [tellTool] with options := { allowRaw := true } }

end Sample

open Sample in
theorem compile_inlined_reaching :
    ∃ t' count r r', (inlineAt reaching ["wf__step__2__sub.wic"]).Yields (t', count) ∧
      (compile (setting [echoTool, catTool])
        (.root reaching.id.stem reaching.yml (Graph.empty "" ""))).Yields r ∧
      (compile (setting [echoTool, catTool])
        (.root t'.id.stem t'.yml (Graph.empty "" ""))).Yields r' ∧
      (r.feed 1 "f").output? = some (0, "o") ∧ ∀ k a, r.feed k a = r'.feed k a := by
  have hsome : (inlined reaching ["wf__step__2__sub.wic"]).any (fun x =>
      (compiled (setting [echoTool, catTool]) reaching.id.stem reaching.yml).any fun r =>
        (compiled (setting [echoTool, catTool]) x.1.id.stem x.1.yml).any fun _ =>
          (r.feed 1 "f").output? == some (0, "o")) = true := by
    decide +kernel
  obtain ⟨⟨t', count⟩, ht', hsome⟩ := Logged.yields_of_any hsome
  obtain ⟨r, hr, hsome⟩ := Logged.yields_of_any hsome
  obtain ⟨r', hr', hfeed⟩ := Logged.yields_of_any hsome
  have hin : (inlineAt reaching ["wf__step__2__sub.wic"]).Yields (t', count) := ht'
  refine ⟨t', count, r, r', hin, hr, hr', beq_iff_eq.mp hfeed, ?_⟩
  have hecho : ToolStep (setting [echoTool, catTool]) (leaf "echo" [("m", inline "x")]) :=
    leaf_toolStep (by decide) (by decide +kernel) rfl (by decide) (by decide) (by decide)
  have hcat : ToolStep (setting [echoTool, catTool]) (leaf "cat" []) :=
    leaf_toolStep (by decide) (by decide +kernel) rfl (by decide) (by decide) (by decide)
  have hl : Lists (setting [echoTool, catTool]) reaching.id.stem reaching.yml
      [leaf "echo" [("m", inline "x")], leaf "cat" []] :=
    around_lists (by simpa using hecho) (by simpa using hcat) ⟨by decide +kernel, by decide +kernel⟩
  have hclear : ∀ l ∈ [leaf "echo" [("m", inline "x")], leaf "cat" []],
      l.Clear (setting [echoTool, catTool]) := by
    intro l hl
    refine ⟨fun hend => ?_, fun hraw => by cases hraw⟩
    rcases List.mem_pair.mp hl with rfl | rfl <;> cases hend
  exact (compile_inlined rfl (by decide +kernel) hl hclear rfl (by decide +kernel) hin hr hr'
    (fun hno => by cases hno) (fun hno => by cases hno)).2

open Sample in
/-- A text that names a step of a workflow leads nowhere when the workflow is inlined. -/
theorem not_compile_inlined :
    ¬ ∀ (set : Setting) (t t' : Tree) (path : Namespaces) (paths : List Namespaces) (count : Nat)
      (graph graph' : Graph) (r r' : Compiled) (ls : List Leaf), set.options.insertSteps = false →
      set.options.namingConventions = false →
      (∀ e ∈ set.tools, ∀ a ∈ namesIn e.2.cwl "inputs", isPathName a = false) →
      Lists set t.id.stem t.yml ls → inlineable t = .ok paths → path ∈ paths →
      (inlineAt t path).Yields (t', count) → (compile set (.root t.id.stem t.yml graph)).Yields r →
      (compile set (.root t'.id.stem t'.yml graph')).Yields r' →
      ∀ k a, r.feed k a = r'.feed k a := by
  intro h
  have hsome : (inlined naming ["wf__step__1__sub.wic"]).any (fun x =>
    (compiled rawSetting naming.id.stem naming.yml).any fun r =>
      (compiled rawSetting x.1.id.stem x.1.yml).any fun r' =>
        (r.feed 1 "m").output? == some (0, "t") && (r'.feed 1 "m").output? == none) = true := by
    decide +kernel
  obtain ⟨⟨t', count⟩, ht', hsome⟩ := Logged.yields_of_any hsome
  obtain ⟨r, hr, hsome⟩ := Logged.yields_of_any hsome
  obtain ⟨r', hr', hfeeds⟩ := Logged.yields_of_any hsome
  obtain ⟨hfeed, hfeed'⟩ := (Bool.and_eq_true _ _).mp hfeeds
  have htell : ∀ as, ToolStep rawSetting (leaf "tell" as) := fun as =>
    leaf_toolStep (by decide) (by decide +kernel) rfl (by decide) (by decide) (by decide)
  have hl : Lists rawSetting naming.id.stem naming.yml
      [leaf "tell" [("m", inline "x")], leaf "tell" [("m", .str "sub__step__1__tell/t")]] :=
    around_lists (by simp) (by simp [htell]) ⟨by decide +kernel, by decide +kernel⟩
  have heq := h rawSetting naming t' ["wf__step__1__sub.wic"] _ count _ _ r r' _ rfl rfl
    (by decide +kernel) hl rfl (by decide +kernel) ht' hr hr' 1 "m"
  rw [heq, beq_iff_eq.mp hfeed'] at hfeed
  cases hfeed

end WorkflowInference.Compile
