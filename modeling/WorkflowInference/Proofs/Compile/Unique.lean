import WorkflowInference.Proofs.Compile.Paths

/-!
Nodes, and names of slots, as the outermost workflow has them. The nodes of each graph only become
more along a compilation, and the graphs of the workflows among the steps are taken in, so each step
that runs a tool has its node in the graph of every workflow around it. The names of the steps on
the way to a slot are joined by underscores, and cannot be taken apart again. But two ways through
one tree part at steps of the same workflow, and there the place tells the steps apart, whatever
follows.
-/
namespace WorkflowInference.Compile

open List Draft

theorem nodesIn_getLast? (h : List.Forall₂ NodesIn gs hs) (hg : gs.getLast? = some g) :
    ∃ k, hs.getLast? = some k ∧ NodesIn g k := by
  rw [← head?_reverse] at hg ⊢
  obtain ⟨gs', hgs'⟩ := head?_eq_some_iff.mp hg
  have hrev := rel_reverse h
  rw [hgs'] at hrev
  obtain ⟨k, hs', hgk, -, heq⟩ := forall₂_cons_left_iff.mp hrev
  exact ⟨k, by rw [heq]; rfl, hgk⟩

def Draft.Shows (d : Draft) (x : String) : Prop :=
  (∃ g, d.graphs.getLast? = some g ∧ x ∈ g.nodes) ∨ ∃ ns ∈ d.siblings.map Graph.nodes, x ∈ ns

variable {d e : Draft}

theorem Draft.Shows.mono (h : d.Shows x) (hgrow : d.Grows e) : e.Shows x := by
  rcases h with ⟨g, hg, hx⟩ | ⟨ns, hns, hx⟩
  · obtain ⟨k, hk, hsub⟩ := nodesIn_getLast? hgrow.graphs hg
    exact .inl ⟨k, hk, hsub hx⟩
  · exact .inr ⟨ns, hgrow.siblings.subset hns, hx⟩

theorem Draft.getLast?_onOwn (f : Graph → Graph) (h : d.graphs.getLast? = some g) :
    (d.onOwn f).graphs.getLast? = some (f g) := by
  rw [getLast?_eq_getElem?] at h
  have hlt := (List.getElem?_eq_some_iff.mp h).1
  unfold onOwn
  dsimp only
  rw [h, getLast?_eq_getElem?]
  simp [hlt]

theorem Draft.addNode_shows (hne : d.graphs ≠ []) (h : d.addNode name attrs = .ok e) :
    e.Shows name := by
  obtain ⟨texts, -, rfl⟩ := Result.of_map h
  have hlast := getLast?_eq_some_getLast hne
  refine Draft.Shows.mono (.inl ⟨_, getLast?_onOwn _ hlast, ?_⟩) (Draft.Draws.onView ..).grows
  exact Graph.mem_addName

variable {d e : Draft} {c : Scope} {s : Site}

theorem Draft.Grows.graphs_ne (h : d.Grows e) (hne : d.graphs ≠ []) : e.graphs ≠ [] := by
  intro hnil
  have hlen := h.graphs.length_eq
  rw [hnil] at hlen
  exact hne (eq_nil_of_length_eq_zero hlen)

/-- The node of a step that runs a tool, at a path of names: a workflow that is a tool by itself is
shown no deeper than the settings say. -/
def leafNode (g : GraphSettings) (cwl : Doc) (ns : Namespaces) : String :=
  if (under? cwl "class").any (· == .str "Workflow") then Graph.shownName g ns
    else Namespaces.join ns

theorem drawStep_shows (hne : d.graphs ≠ []) (hsub : s.isSub = false)
    (h : drawStep c s d = .ok e) : e.Shows (leafNode c.setting.graph s.tool.cwl (c.path s)) := by
  obtain ⟨cls, hcls, h⟩ := Result.of_bind h
  have hcls := field_eq_ok.mp hcls
  split at h
  · rename_i hnot
    obtain ⟨look, -, label, -, style, -, h⟩ := Result.of_bind₃ h
    have hnode : leafNode c.setting.graph s.tool.cwl (c.path s) = Namespaces.join (c.path s) := by
      rw [leafNode, hcls, Option.any_some, if_neg]
      exact fun heq => by simp [heq] at hnot
    rw [hnode]
    refine addNode_shows ?_ h
    exact hne
  · rename_i hworkflow
    rw [hsub, Bool.false_and, if_neg (by decide)] at h
    have hnode : leafNode c.setting.graph s.tool.cwl (c.path s) = Graph.shownName c.setting.graph
        (c.path s) := by
      rw [leafNode, hcls, Option.any_some, if_pos]
      simpa using hworkflow
    rw [hnode]
    refine addNode_shows ?_ h
    exact hne

namespace StepRun

variable (run : StepRun sub c i key d e)

theorem owned_grows : run.brought.Grows run.owned := by
  obtain ⟨-, fs, calls, hprepared, -⟩ := prepare_spec run.preparing
  have hfirst : run.brought.Grows run.prepared :=
    .of_eq (congrArg graphs hprepared :) (congrArg siblings hprepared :)
  exact run.owned_keeps (fun _ _ _ _ _ h => h.trans (.of_eq rfl rfl)) hfirst

theorem last_grows : run.drawn.Grows e := by
  obtain ⟨-, -, fs, hnamed, -⟩ := nameOutputs_spec run.naming
  obtain ⟨outs, sigs, -, -, s, hlast, -⟩ := run.closed_spec
  have hfirst : run.drawn.Grows run.named :=
    .of_eq (congrArg graphs hnamed :) (congrArg siblings hnamed :)
  have htaken : run.drawn.Grows run.taken := by
    refine run.taken_chain.keeps ?_ hfirst
    exact fun k _ x y hx ⟨_, _, _, _, _, _, _, _, hf, hdraws⟩ =>
      hx.trans (hf.grows.trans hdraws.grows)
  have hbound : run.drawn.Grows run.bound := by
    refine run.bound_chain.keeps ?_ htaken
    exact fun a _ x y hx ⟨_, _, hf, hdraws⟩ => hx.trans (hf.grows.trans hdraws.grows)
  exact hbound.trans (.of_eq (congrArg graphs hlast :) (congrArg siblings hlast :))

theorem brought_grows : run.brought.Grows e :=
  run.owned_grows.trans ((drawStep_draws run.drawing).grows.trans run.last_grows)

end StepRun

variable {r : Draft × Entries}

theorem ToolRun.grows {run : StepRun sub c i key d e} (tool : ToolRun run) : d.Grows e := by
  refine .trans ?_ run.brought_grows
  rw [tool.brought]
  exact .of_eq rfl rfl

theorem ToolRun.shows {run : StepRun sub c i key d e} (tool : ToolRun run) (hne : d.graphs ≠ []) :
    e.Shows (leafNode c.setting.graph run.tool.cwl (c.path run.site)) := by
  have hgrow : d.Grows run.owned := by
    refine .trans ?_ run.owned_grows
    rw [tool.brought]
    exact .of_eq rfl rfl
  exact (drawStep_shows (hgrow.graphs_ne hne) tool.isTool run.drawing).mono run.last_grows

theorem Concluded.shows {r : Compiled} (concl : Concluded c d r) :
    List.Forall₂ NodesIn d.graphs r.graphs ∧
      (d.graphs ≠ [] → ∀ x, d.Shows x → ∃ g, r.graphs.getLast? = some g ∧ x ∈ g.nodes) := by
  have hrest := (workflowOutputs_spec concl.bringing).1.grows.graphs
  rw [concl.drawn_graphs] at hrest
  rw [concl.graphs]
  refine ⟨?_, fun hne x hx => ?_⟩
  · exact nodesIn_trans (Draft.Draws.onOwn d fun g => (concl.absorbs g).1).grows.graphs hrest
  · have hlast := getLast?_eq_some_getLast hne
    obtain ⟨g, hg, hsub⟩ := nodesIn_getLast? hrest (getLast?_onOwn _ hlast)
    refine ⟨g, hg, hsub ?_⟩
    rcases hx with ⟨k, hk, hx⟩ | ⟨ns, hns, hx⟩
    · rw [hlast] at hk
      cases hk
      exact (concl.absorbs _).1 hx
    · obtain ⟨k, hk, rfl⟩ := mem_map.mp hns
      exact (concl.absorbs _).2 k hk hx

end WorkflowInference.Compile

namespace WorkflowInference

open Namespaces List Option

variable {q p s : PartTree} {is : List Nat}

theorem Namespaces.join_concat (h : ns ≠ []) (a : String) :
    join (ns ++ [a]) = join ns ++ sep ++ a := by
  induction ns with
  | nil => exact absurd rfl h
  | cons n ns ih =>
    cases ns with
    | nil => rw [singleton_append, join_cons (by simp), join_singleton, join_singleton]
    | cons m ns =>
      rw [cons_append, join_cons (by simp), ih (by simp), join_cons (cons_ne_nil m ns)]
      simp only [String.append_assoc]

namespace Compile

namespace PartTree

def lastName (p : PartTree) : String := p.part.namespaces.getLastD ""

def way : PartTree → List Nat → Namespaces
  | _, [] => []
  | q, i :: is => (q.subs[i]?).elim [] fun p => p.lastName :: p.way is

def slotName (q : PartTree) (is : List Nat) (k : String) : String := join (q.way is ++ [k])

def IsLeaf (q : PartTree) (is : List Nat) (p : PartTree) : Prop := q.at? is = some p ∧ p.subs = []

def TellsPlaces (q : PartTree) : Prop :=
  ∃ (stem : String) (key : Nat → String), ∀ (i : Nat) (p : PartTree), q.subs[i]? = some p →
    p.lastName = stepName stem i (key i)

variable {i : Nat} {js : List Nat}

theorem at?_cons (h : q.at? (i :: is) = some p) :
    ∃ s, q.subs[i]? = some s ∧ s.at? is = some p := bind_eq_some_iff.mp h

theorem way_cons (h : q.subs[i]? = some s) (is : List Nat) :
    q.way (i :: is) = s.lastName :: s.way is := by
  rw [way, h, elim_some]

theorem slotName_cons (h : q.subs[i]? = some s) (is : List Nat) (k : String) :
    q.slotName (i :: is) k = s.lastName ++ sep ++ s.slotName is k := by
  rw [slotName, way_cons h, cons_append, join_cons (by simp), slotName]

theorem IsLeaf.cons (h : q.IsLeaf (i :: is) p) : ∃ s, q.subs[i]? = some s ∧ s.IsLeaf is p := by
  obtain ⟨s, hs, hp⟩ := at?_cons h.1
  exact ⟨s, hs, hp, h.2⟩

theorem IsLeaf.eq_nil (h : q.IsLeaf [] p) (hs : q.at? is = some s) : is = [] := by
  obtain ⟨hq, hsubs⟩ := h
  cases hq
  cases is with
  | nil => rfl
  | cons i is =>
    obtain ⟨u, hu, -⟩ := at?_cons hs
    rw [hsubs] at hu
    cases hu

theorem slotName_inj (hq : ∀ is u, q.at? is = some u → u.TellsPlaces) (hp : q.IsLeaf is p)
    (hs : q.IsLeaf js s) (h : q.slotName is k = q.slotName js l) : is = js ∧ k = l := by
  induction is generalizing q js with
  | nil =>
    have hjs := hp.eq_nil hs.1
    subst hjs
    simp only [slotName, way, nil_append, join_singleton] at h
    exact ⟨rfl, h⟩
  | cons i is ih =>
    cases js with
    | nil => exact absurd (hs.eq_nil hp.1) (by simp)
    | cons j js =>
      obtain ⟨u, hu, hp⟩ := hp.cons
      obtain ⟨v, hv, hs⟩ := hs.cons
      rw [slotName_cons hu, slotName_cons hv] at h
      obtain ⟨stem, key, htells⟩ := hq [] q rfl
      -- the two ways part here, or go on together
      have hij : i = j := by
        rw [htells i u hu, htells j v hv, String.append_assoc, String.append_assoc] at h
        exact (stepName_append_inj h).1
      subst hij
      rw [hu] at hv
      cases hv
      have hrest : u.slotName is k = u.slotName js l := by
        have hchars := congrArg String.toList h
        rw [← String.toList_inj]
        simpa using hchars
      have hinner : ∀ is w, u.at? is = some w → w.TellsPlaces := fun is w hw =>
        hq (i :: is) w (by rw [at?, hu, bind_some, hw])
      obtain ⟨rfl, hkl⟩ := ih hinner hp hs hrest
      exact ⟨rfl, hkl⟩

theorem way_ne_nil (h : q.at? (i :: is) = some p) : q.way (i :: is) ≠ [] := by
  obtain ⟨s, hs, -⟩ := at?_cons h
  rw [way_cons hs]
  exact cons_ne_nil _ _

theorem way_inj (hq : ∀ is u, q.at? is = some u → u.TellsPlaces) (hp : q.IsLeaf is p)
    (hs : q.IsLeaf js s) (h : join (q.way is) = join (q.way js)) : is = js := by
  cases is with
  | nil => exact (hp.eq_nil hs.1).symm
  | cons i is =>
    cases js with
    | nil => exact absurd (hs.eq_nil hp.1) (by simp)
    | cons j js =>
      -- with an empty slot added to both, they are names of slots
      refine (slotName_inj hq hp hs (k := "") (l := "") ?_).1
      rw [slotName, slotName, join_concat (way_ne_nil hp.1), join_concat (way_ne_nil hs.1), h]

end PartTree

section Compiled

variable {set : Setting} {n : Nat} {t : Task} {r : Compiled}

theorem lastName_eq (h : p.part.namespaces.getLast? = some x) : p.lastName = x := by
  rw [PartTree.lastName, getLastD_eq_getLast?, h, getD_some]

theorem OnceRun.sub_cases {sub : Compiler} (run : OnceRun sub set t r)
    (hp : r.tree.subs[i]? = some p) :
    (∃ w u s, innerAt t.yml i = some w ∧ (sub u).Yields s ∧ p = s.tree ∧ u.flow = w) ∨
      p.subs = [] := by
  obtain ⟨place⟩ := run.placeAt (run.lt_of_sub hp)
  rcases place.here.head.brought_cases with ⟨⟨inner⟩⟩ | ⟨⟨tool⟩⟩
  · obtain ⟨hat, hsubs⟩ := place.here.inner_spec inner
    rw [hp] at hsubs
    cases hsubs
    exact .inl ⟨_, _, inner.result, hat, inner.running, rfl, rfl⟩
  · have hsubs := place.here.subs_eq (p := .node tool.part []) (by rw [tool.brought])
    rw [hp] at hsubs
    cases hsubs
    exact .inr rfl

theorem Faithful.node (h : Faithful set n t r) (hp : r.tree.at? is = some p) :
    p.subs = [] ∨ ∃ m u s, Faithful set (m + 1) u s ∧ p = s.tree ∧
      subAt t.flow is = some u.flow := by
  induction h using Faithful.induction generalizing is with
  | step h run ih =>
    cases is with
    | nil =>
      cases hp
      exact .inr ⟨_, _, _, h, rfl, rfl⟩
    | cons i is =>
      obtain ⟨s, hs, hp⟩ := PartTree.at?_cons hp
      rcases run.sub_cases hs with ⟨w, u, s', hw, hyields, rfl, rfl⟩ | hleaf
      · rw [subAt, hw, bind_some]
        exact ih ⟨hyields, h.kept.inner hw hs⟩ hp
      · obtain rfl := (show s.IsLeaf [] s from ⟨rfl, hleaf⟩).eq_nil hp
        cases hp
        exact .inl hleaf

theorem Faithful.tellsPlaces (h : Faithful set n t r)
    (hknown : ∀ is w, subAt t.flow is = some w → ∀ id ∈ toolIds w.2, set.tools.has id) :
    ∀ is p, r.tree.at? is = some p → p.TellsPlaces := by
  intro is p hp
  rcases h.node hp with hleaf | ⟨m, u, s, hs, rfl, hu⟩
  · refine ⟨"", fun _ => "", fun j v hv => ?_⟩
    rw [hleaf] at hv
    cases hv
  · obtain ⟨run⟩ := hs.once
    refine ⟨run.scope.stem, fun i => run.scope.keys.getD i "", fun i p hp => lastName_eq ?_⟩
    exact run.children (hknown is u.flow hu) (fun u s hs => compileAt_namespaces hs)
      (run.lt_of_sub hp) hp

def LeavesShown (set : Setting) (ns : Namespaces) (q : PartTree) (d : Draft) : Prop :=
  ∀ is p, q.IsLeaf is p → d.Shows (leafNode set.graph p.part.cwl (ns ++ q.lastName :: q.way is))

section Step

variable {run : OnceRun (compileAt set n) set t r} {i : Nat} {d e : Draft}

theorem StepIn.tool_shown (here : StepIn run i d e) (tool : ToolRun here.head) (hne : d.graphs ≠ [])
    (hq : r.tree.subs[i]? = some q) : LeavesShown set t.namespaces q e := by
  have hsubs := here.subs_eq (p := .node tool.part []) (by rw [tool.brought])
  rw [hq] at hsubs
  cases hsubs
  rintro is p hp
  obtain rfl := (show (PartTree.node tool.part []).IsLeaf [] _ from ⟨rfl, rfl⟩).eq_nil hp.1
  cases hp.1
  have hshown := tool.shows hne
  have hlast : (PartTree.node tool.part []).lastName = here.head.site.name :=
    lastName_eq (by change tool.part.namespaces.getLast? = _; rw [tool.namespaces]; rfl)
  rw [hlast]
  change e.Shows (leafNode set.graph tool.part.cwl _)
  rw [tool.cwl]
  exact hshown

theorem StepIn.sub_shown (here : StepIn run i d e) (inner : SubRun here.head)
    (hq : r.tree.subs[i]? = some q)
    (hgraphs : List.Forall₂ NodesIn (d.graphs ++ [inner.graph]) inner.result.graphs)
    (hleaves : ∀ is p, inner.result.tree.IsLeaf is p →
      ∃ g, inner.result.graphs.getLast? = some g ∧ leafNode set.graph p.part.cwl
      ((t.namespaces ++ [here.head.site.name]) ++ inner.result.tree.way is) ∈ g.nodes) :
    d.Grows e ∧ LeavesShown set t.namespaces q e := by
  rw [(here.inner_spec inner).2] at hq
  cases hq
  have hbrought : here.head.brought.graphs = inner.result.graphs.dropLast ∧
      here.head.brought.siblings = d.siblings ++ (inner.result.graphs.getLast?).toList := by
    rw [inner.brought_eq]
    exact ⟨rfl, rfl⟩
  have hgrow := here.head.brought_grows
  constructor
  · refine .trans ⟨?_, ?_⟩ hgrow
    · rw [hbrought.1]
      have hdrop := forall₂_take d.graphs.length hgraphs
      have hlen := hgraphs.length_eq
      rw [length_append, length_singleton] at hlen
      rwa [take_left, ← Nat.add_sub_cancel (m := 1) (n := d.graphs.length),
        hlen, ← dropLast_eq_take] at hdrop
    · rw [hbrought.2, map_append]
      exact prefix_append ..
  · intro is p hp
    obtain ⟨g, hg, hnode⟩ := hleaves is p hp
    have hlast := lastName_eq
      (here.getLast?_namespaces (fun _ _ => compileAt_namespaces) (here.inner_spec inner).2)
    rw [hlast, append_cons]
    refine Draft.Shows.mono (.inr ⟨g.nodes, ?_, hnode⟩) hgrow
    rw [hbrought.2, hg]
    simp

end Step

theorem Faithful.drawn (h : Faithful set n t r) (hne : t.graphs ≠ []) :
    List.Forall₂ NodesIn t.graphs r.graphs ∧ ∀ is p, r.tree.IsLeaf is p →
      ∃ g, r.graphs.getLast? = some g ∧
      leafNode set.graph p.part.cwl (t.namespaces ++ r.tree.way is) ∈ g.nodes := by
  induction h using Faithful.induction with
  | @step _ t r h run ih =>
    -- along the steps: what is drawn stays, and the tools of the steps so far are drawn
    have hall := run.keeps_steps (P := fun j d => Draft.Grows (.start t run.start) d ∧
      ∀ m < j, ∀ q, r.tree.subs[m]? = some q →
      LeavesShown set t.namespaces q d) ?_ ⟨.of_eq rfl rfl, by simp⟩
    · obtain ⟨hgrow, hshown⟩ := hall
      obtain ⟨concl⟩ := run.concluded
      obtain ⟨hconcl, hlast⟩ := concl.shows
      have hne' : run.last.graphs ≠ [] := hgrow.graphs_ne hne
      refine ⟨nodesIn_trans hgrow.graphs hconcl, ?_⟩
      rintro (_ | ⟨i, is⟩) p hp
      · obtain ⟨hroot, hleaf⟩ := hp
        cases hroot
        exact absurd hleaf run.subs_ne
      · obtain ⟨q, hq, hp⟩ := hp.cons
        refine hlast hne' _ ?_
        rw [PartTree.way_cons hq]
        exact hshown i (run.lt_of_sub hq) q hq is p hp
    · rintro j d e here ⟨hgrow, hshown⟩
      have hned : d.graphs ≠ [] := hgrow.graphs_ne hne
      have hhere : d.Grows e ∧ ∀ q, r.tree.subs[j]? = some q →
          LeavesShown set t.namespaces q e := by
        rcases here.head.brought_cases with ⟨⟨inner⟩⟩ | ⟨⟨tool⟩⟩
        · obtain ⟨hgraphs, hleaves⟩ := ih (here.inner_faithful h.kept inner) (by simp [subTask])
          exact ⟨(here.sub_shown inner (here.inner_spec inner).2 hgraphs hleaves).1, fun q hq =>
            (here.sub_shown inner hq hgraphs hleaves).2⟩
        · exact ⟨tool.grows, fun q hq => here.tool_shown tool hned hq⟩
      refine ⟨hgrow.trans hhere.1, fun m hm q hq => ?_⟩
      rcases Nat.lt_succ_iff_lt_or_eq.mp hm with hm | rfl
      · exact fun is p hp => (hshown m hm q hq is p hp).mono hhere.1
      · exact hhere.2 q hq

theorem StepIn.grows {run : OnceRun (compileAt set n) set t r} (here : StepIn run i d e)
    (hun : Unaltered r.tree t.flow) : d.Grows e := by
  rcases here.head.brought_cases with ⟨⟨inner⟩⟩ | ⟨⟨tool⟩⟩
  · obtain ⟨hgraphs, hleaves⟩ := (here.inner_faithful hun inner).drawn (by simp [subTask])
    exact (here.sub_shown inner (here.inner_spec inner).2 hgraphs hleaves).1
  · exact tool.grows

end Compiled

/-- The names on the way to a tool are all shown: it is no workflow by itself, or lies no deeper
than is shown. -/
def ShownWhole (g : GraphSettings) (cwl : Doc) (ns : Namespaces) : Prop :=
  (under? cwl "class").any (· == .str "Workflow") = false ∨ (ns.length : Int) ≤ 1 + g.inlineDepth

theorem leafNode_eq (h : ShownWhole g cwl ns) : leafNode g cwl ns = join ns := by
  unfold leafNode
  rcases h with h | h
  · rw [h]
    rfl
  · split
    · have hslice : Graph.sliceTo ns (1 + g.inlineDepth) = ns := by
        rw [Graph.sliceTo, if_pos (by omega), take_of_length_le (by omega)]
      rw [Graph.shownName, hslice]
    · rfl

/-- No two slots of steps that run tools share a name in the outermost workflow. Each such step has
a node in its graph, and no two steps share a node unless their names are cut off. -/
theorem compile_slots_unique {set : Setting} {path : String} {yml : Doc} {graph : Graph}
    {r : Compiled} (hknown : ∀ w ∈ within path yml, ∀ id ∈ toolIds w.2, set.tools.has id = true)
    (h : (compile set (.root path yml graph)).Yields r) (hun : Unaltered r.tree (path, yml)) :
    (∀ is js p q, r.tree.IsLeaf is p → r.tree.IsLeaf js q →
      ∀ k l, r.tree.slotName is k = r.tree.slotName js l → is = js ∧ k = l) ∧
    ∃ g, r.graphs = [g] ∧
      (∀ is p, r.tree.IsLeaf is p → leafNode set.graph p.part.cwl (r.tree.way is) ∈ g.nodes) ∧
      ∀ is js p q, r.tree.IsLeaf is p → r.tree.IsLeaf js q →
        ShownWhole set.graph p.part.cwl (r.tree.way is) →
        ShownWhole set.graph q.part.cwl (r.tree.way js) →
        leafNode set.graph p.part.cwl (r.tree.way is) = leafNode set.graph q.part.cwl
        (r.tree.way js) → is = js := by
  obtain ⟨s, hs, rfl⟩ := h.of_map
  have hplaces := Faithful.tellsPlaces ⟨hs, hun⟩ fun is w hw => hknown w (mem_within_subAt hw)
  refine ⟨fun is js p q hp hq k l heq => PartTree.slotName_inj hplaces hp hq heq, ?_⟩
  obtain ⟨hgraphs, hdrawn⟩ := Faithful.drawn ⟨hs, hun⟩ (by simp [Task.root])
  obtain ⟨g, gs, -, hnil, hg⟩ := List.forall₂_cons_left_iff.mp hgraphs
  cases hnil
  refine ⟨keepRanks graph g, by
    rw [hg]; rfl, fun is p hp => ?_, fun is js p q hp hq hwhole hwhole' heq => ?_⟩
  · obtain ⟨k, hk, hnode⟩ := hdrawn is p hp
    rw [hg] at hk
    cases hk
    exact hnode
  · rw [leafNode_eq hwhole, leafNode_eq hwhole'] at heq
    exact PartTree.way_inj hplaces hp hq heq

theorem PartTree.exists_isLeaf (h : (q.at? is).any (·.subs.isEmpty)) : ∃ p, q.IsLeaf is p := by
  obtain ⟨p, hp, hnone⟩ := any_eq_true _ _ |>.mp h
  exact ⟨p, hp, isEmpty_iff.mp hnone⟩

namespace Sample

def workflowTool (stem : String) : StepId × Tool :=
  (⟨stem, globalSpace⟩, ⟨stem ++ ".cwl", Doc.obj [("class", .str "Workflow"), ("inputs", .emptyMap),
    ("outputs", Doc.obj [("o", file)]), ("steps", .list [])]⟩)

def enclosed : Doc := workflow [inner "sub.wic" (workflow [step "a" [], step "b" []])]

def shallow : Setting :=
  { setting [workflowTool "a", workflowTool "b"] with graph := { inlineDepth := 0 } }

end Sample

open Sample in
theorem compile_slots_unique_referring :
    ∃ r, (compile (setting [echoTool, catTool])
      (.root "wf.wic" referring (Graph.empty "" ""))).Yields r ∧ ∃ p q, r.tree.IsLeaf [0] p ∧
      r.tree.IsLeaf [1, 0] q ∧ (∀ k l, r.tree.slotName [0] k ≠ r.tree.slotName [1, 0] l) ∧
      ∃ g, r.graphs = [g] ∧ leafNode {} q.part.cwl (r.tree.way [1, 0]) ∈ g.nodes := by
  have hsome : (compiled (setting [echoTool, catTool]) "wf.wic" referring).any (fun r =>
      (r.tree.at? [0]).any (·.subs.isEmpty) && (r.tree.at? [1, 0]).any (·.subs.isEmpty)) =
        true := by decide +kernel
  obtain ⟨r, hr, hleaves⟩ := Logged.yields_of_any hsome
  obtain ⟨hp, hq⟩ := (Bool.and_eq_true _ _).mp hleaves
  obtain ⟨p, hpleaf⟩ := PartTree.exists_isLeaf hp
  obtain ⟨q, hqleaf⟩ := PartTree.exists_isLeaf hq
  obtain ⟨hunique, g, hg, hnodes, -⟩ := compile_slots_unique (by decide +kernel) hr
    (compile_unaltered rfl hr)
  refine ⟨r, hr, p, q, hpleaf, hqleaf, fun k l heq => ?_, g, hg, hnodes _ q hqleaf⟩
  exact absurd (hunique _ _ p q hpleaf hqleaf k l heq).1 (by decide)

open Sample in
/-- Tools that are workflows by themselves share a node when the workflow around them is drawn as
one. -/
theorem not_compile_slots_unique :
    ¬ ∀ (set : Setting) (path : String) (yml : Doc) (graph : Graph) (r : Compiled),
      (∀ w ∈ within path yml, ∀ id ∈ toolIds w.2, set.tools.has id = true) →
      (compile set (.root path yml graph)).Yields r → Unaltered r.tree (path, yml) → ∃ g, r.graphs =
      [g] ∧ ∃ node : List Nat → String, (∀ is p, r.tree.IsLeaf is p → node is ∈ g.nodes) ∧
      ∀ is js p q, r.tree.IsLeaf is p → r.tree.IsLeaf js q → node is = node js → is = js := by
  intro h
  have hsome : (compiled shallow "wf.wic" enclosed).any (fun r =>
      r.graphs.any (fun g => g.nodes.length = 1) &&
      (r.tree.at? [0, 0]).any (·.subs.isEmpty) && (r.tree.at? [0, 1]).any (·.subs.isEmpty)) =
      true := by decide +kernel
  obtain ⟨r, hr, hall⟩ := Logged.yields_of_any hsome
  obtain ⟨hall, hq⟩ := (Bool.and_eq_true _ _).mp hall
  obtain ⟨hone, hp⟩ := (Bool.and_eq_true _ _).mp hall
  obtain ⟨p, hpleaf⟩ := PartTree.exists_isLeaf hp
  obtain ⟨q, hqleaf⟩ := PartTree.exists_isLeaf hq
  obtain ⟨g, hg, node, hnodes, hinj⟩ := h _ _ _ _ r (by decide +kernel) hr
    (compile_unaltered rfl hr)
  rw [hg, List.any_cons, List.any_nil, Bool.or_false, decide_eq_true_eq] at hone
  obtain ⟨x, hx⟩ := List.length_eq_one_iff.mp hone
  have hsame : node [0, 0] = node [0, 1] := by
    have hfirst := hnodes _ p hpleaf
    have hsecond := hnodes _ q hqleaf
    rw [hx, List.mem_singleton] at hfirst hsecond
    rw [hfirst, hsecond]
  exact absurd (hinj _ _ p q hpleaf hqleaf hsame) (by decide)

end Compile

end WorkflowInference
