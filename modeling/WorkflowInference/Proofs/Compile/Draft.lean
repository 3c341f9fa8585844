import WorkflowInference.Compile.Workflow
import WorkflowInference.Proofs.Document

/-!
Drafts. What is drawn does not touch the documents of a draft, so it is forgotten by `core`; a
binding of an input of a step is one write, whichever way it came about.
-/
namespace WorkflowInference

open Entries Result
open List hiding getD

variable {k : String}

theorem Registry.mem_of_get? {r : Registry} {id : StepId} {t : Tool} (h : r.get? id = some t) :
    (id, t) ∈ r := by
  fun_induction Registry.get? r id with
  | case1 => cases h
  | case2 =>
    cases h
    exact mem_cons_self
  | case3 _ _ _ _ ih => exact mem_cons_of_mem _ (ih h)

theorem Workflow.subKeys_str (names : List String) : ∃ ks, subKeys (names.map .str) = .ok ks := by
  unfold subKeys
  induction names with
  | nil => exact ⟨[], rfl⟩
  | cons s names ih =>
    obtain ⟨ks, hks⟩ := ih
    rw [map_cons, filterMapM_cons, hks]
    cases hsub : isSubKey s
    · exact ⟨ks, by simp [hsub, bind, Except.bind]⟩
    · exact ⟨.str s :: ks, by simp [hsub, bind, Except.bind, pure, Except.pure]⟩

namespace Graph

variable {α : Type} {p q : Namespaces} {g : Graph} {n a b : String} {s : GraphSettings}
  {f : Graph → α → Graph}

theorem subset_addName : g.nodes ⊆ (g.addName n).nodes := by
  unfold addName
  split
  · exact List.Subset.refl _
  · exact subset_append_left ..

theorem mem_addName : n ∈ (g.addName n).nodes := by
  unfold addName
  split
  · rename_i h
    simpa using h
  · simp

theorem subset_addArrow : g.nodes ⊆ (g.addArrow a b).nodes := by
  have h : g.nodes ⊆ ((g.addName a).addName b).nodes :=
    List.Subset.trans subset_addName subset_addName
  unfold addArrow
  dsimp only
  split <;> exact h

theorem subset_addEdge : g.nodes ⊆ (addEdge s g p q label color).nodes := by
  unfold addEdge
  dsimp only
  refine List.Subset.trans ?_ subset_addArrow
  split <;> exact List.Subset.refl _

theorem subset_foldl (hf : ∀ g x, g.nodes ⊆ (f g x).nodes) (xs : List α) (g : Graph) :
    g.nodes ⊆ (xs.foldl f g).nodes := by
  induction xs generalizing g with
  | nil => exact List.Subset.refl _
  | cons x xs ih => exact List.Subset.trans (hf g x) (ih _)

theorem mem_foldl (hf : ∀ g x, g.nodes ⊆ (f g x).nodes) {xs : List α} {x : α}
    (hx : x ∈ xs) (hn : ∀ g, n ∈ (f g x).nodes) (g : Graph) : n ∈ (xs.foldl f g).nodes := by
  induction xs generalizing g with
  | nil => cases hx
  | cons y ys ih =>
    rcases mem_cons.mp hx with rfl | hx
    · exact subset_foldl hf ys _ (hn g)
    · exact ih hx _

theorem addSubgraphs_nodes {subs : List Graph} {depth : Nat} {firsts ranks : List String} :
    g.nodes ⊆ (addSubgraphs s g subs depth firsts ranks).nodes ∧
      ∀ h ∈ subs, h.nodes ⊆ (addSubgraphs s g subs depth firsts ranks).nodes := by
  -- one of the graphs is taken in: its lines if it is shown, then its nodes and its edges
  let absorb (g sub : Graph) : Graph :=
    sub.edges.foldl (fun g e => g.addArrow e.1 e.2) (sub.nodes.foldl addName
      (if decide ((depth : Int) < s.inlineDepth) then
        g.addLines (Dot.subgraph sub.title sub.lines) else g))
  have hgrow : ∀ g sub, g.nodes ⊆ (absorb g sub).nodes := by
    intro g sub
    refine List.Subset.trans ?_ (subset_foldl (fun _ _ => subset_addArrow) _ _)
    refine List.Subset.trans ?_ (subset_foldl (fun _ _ => subset_addName) _ _)
    split <;> exact List.Subset.refl _
  have htaken : ∀ sub, ∀ n ∈ sub.nodes, ∀ g, n ∈ (absorb g sub).nodes := by
    intro sub n hn g
    refine subset_foldl (fun _ _ => subset_addArrow) _ _ ?_
    exact mem_foldl (f := addName) (fun _ _ => subset_addName) hn (fun _ => mem_addName) _
  have hrank : (addSubgraphs s g subs depth firsts ranks).nodes =
      (subs.reverse.foldl absorb g).nodes := by
    unfold addSubgraphs
    dsimp only
    split <;> split <;> rfl
  rw [hrank]
  refine ⟨subset_foldl hgrow _ _, fun h hh n hn => ?_⟩
  exact mem_foldl hgrow (mem_reverse.mpr hh) (htaken h n hn) g

end Graph

namespace Compile

open Workflow (addIn addOut)

variable {d v w step : Doc} {es : Entries} {ks : List Doc} {a arg : String}

@[simp] theorem under?_map (es : Entries) (k : String) : under? (.map es) k = get? es k := rfl

theorem field_eq_ok : d.field k = .ok v ↔ under? d k = some v := by
  cases d <;> simp [Doc.field, under?, Doc.map?]

theorem fieldD_eq_ok (h : d.fieldD k w = .ok v) : v = (under? d k).getD w := by
  cases d <;> simp_all [Doc.fieldD, under?, Doc.map?, getD]

theorem fieldD_map (h : d.fieldD k w = .ok v) : ∃ es, d = .map es := by
  cases d <;> simp_all [Doc.fieldD]

theorem entries_eq_ok : d.entries = .ok es ↔ d = .map es := by
  cases d <;> simp [Doc.entries]

theorem mem_of_under? (h : under? d k = some v) : ∃ es, d = .map es ∧ (.str k, v) ∈ es := by
  cases d with
  | map es => exact ⟨es, rfl, mem_of_get? h⟩
  | _ => cases h

theorem stepKey_eq (h : under? d "id" = some v) : Workflow.stepKey d = v := by
  cases d with
  | map es =>
    rw [under?_map] at h
    rw [Workflow.stepKey, getD, h, Option.getD_some]
  | _ => cases h

theorem requireId_eq_ok {context id : String} (h : Workflow.requireId context d = .ok id) :
    under? d "id" = some (.str id) ∧ id ≠ "" := by
  unfold Workflow.requireId at h
  split at h
  · split at h
    · rename_i hs
      split at h
      · cases h
      · rename_i hne
        cases h
        exact ⟨hs, hne⟩
    · cases h
  · cases h

theorem inside_of_under? (h : under? d k = some v) : Doc.Inside v d := by
  obtain ⟨es, rfl, hmem⟩ := mem_of_under? h
  exact .value hmem (.refl v)

theorem depth_under? (h : under? d k = some v) : v.depth < d.depth := by
  obtain ⟨es, rfl, hmem⟩ := mem_of_under? h
  have := Doc.depth_value_le hmem
  rw [Doc.depth]
  omega

theorem names_eq_ok
    (h : ks.mapM (fun k => k.str?.elim (Except.error Failure.wrongKind) Except.ok) = .ok ss) :
    ks = ss.map .str := by
  have hall := mapM_eq_ok h
  clear h
  induction hall with
  | nil => rfl
  | @cons k s ks ss hk _ ih =>
    rw [elim_eq_ok] at hk
    rw [ih, map_cons]
    cases k <;> simp_all [Doc.str?]

def namesIn (d : Doc) (k : String) : List String :=
  (((under? d k).bind fun v => v.members.toOption).getD []).filterMap Doc.str?

theorem mem_namesIn (hv : under? d k = some v) (hks : v.members = .ok ks)
    (ha : .str a ∈ ks) : a ∈ namesIn d k := by
  simp only [namesIn, hv, Option.bind_some, hks, Except.toOption, Option.getD_some]
  exact mem_filterMap.mpr ⟨_, ha, rfl⟩

theorem mem_namesIn_map (h : under? d k = some (.map es)) :
    a ∈ namesIn d k ↔ has es a := by
  simp only [namesIn, h, Option.bind_some, Doc.members, Except.toOption, Option.getD_some,
    has_iff_mem, mem_filterMap]
  constructor
  · rintro ⟨x, hx, hstr⟩
    cases x <;> simp_all [Doc.str?]
  · intro ha
    exact ⟨_, ha, rfl⟩

def bindings (step : Doc) : Entries := ((under? step "in").bind Doc.map?).getD []

def bindInput (step : Doc) (arg : String) (v : Doc) : Doc :=
  .map (put (step.map?.getD []) "in" (.map (put (bindings step) arg v)))

@[simp] theorem bindings_bindInput (step : Doc) (arg : String) (v : Doc) :
    bindings (bindInput step arg v) = put (bindings step) arg v := by
  simp [bindings, bindInput, Doc.map?]

theorem under?_bindInput (hk : k ≠ "in") :
    under? (bindInput step arg v) k = under? step k := by
  cases step with
  | map es => simp [bindInput, Doc.map?, get?_put_ne hk.symm]
  | _ => simp [bindInput, Doc.map?, get?_put_ne hk.symm, under?]

theorem addIn_eq_ok (hin : (under? step "in").isSome)
    (h : addIn step key [(.str arg, v)] = .ok s) : s = bindInput step arg v := by
  cases step with
  | map es =>
    cases es with
    | nil => simp at hin
    | cons e es =>
      obtain ⟨x, hx⟩ := Option.isSome_iff_exists.mp hin
      simp only [under?_map] at hx
      simp only [addIn, hx] at h
      cases x with
      | map old =>
        simp only [Except.ok.injEq] at h
        simp [← h, bindInput, bindings, Doc.map?, hx, update, write_str]
      | _ => simp at h
  | _ => simp [under?, Doc.map?] at hin

def NodesIn (g h : Graph) : Prop := g.nodes ⊆ h.nodes

theorem NodesIn.refl (g : Graph) : NodesIn g g := List.Subset.refl _

theorem nodesIn_all (gs : List Graph) : List.Forall₂ NodesIn gs gs :=
  forall₂_same.mpr fun g _ => .refl g

theorem nodesIn_set {gs : List Graph} {k : Nat} {g h : Graph} (hk : gs[k]? = some g)
    (hgh : NodesIn g h) : List.Forall₂ NodesIn gs (gs.set k h) := by
  induction gs generalizing k with
  | nil => exact .nil
  | cons x gs ih =>
    cases k with
    | zero =>
      cases hk
      exact .cons hgh (nodesIn_all gs)
    | succ k => exact .cons (.refl x) (ih hk)

theorem nodesIn_trans (h : List.Forall₂ NodesIn fs gs) (h' : List.Forall₂ NodesIn gs hs) :
    List.Forall₂ NodesIn fs hs :=
  forall₂_trans (fun f g h (hfg : NodesIn f g) (hgh : NodesIn g h) _ hx => hgh (hfg hx)) h h'

namespace Draft

variable {d e f : Draft} {i j : Nat} {arg : String} {v : Doc}

def bind (d : Draft) (i : Nat) (arg : String) (v : Doc) : Draft :=
  d.setStep i (bindInput (d.step i) arg v)

abbrev HasIn (d : Draft) (i : Nat) : Prop := (under? (d.step i) "in").isSome

theorem setIn_eq_ok (h : d.setIn i arg v = .ok e) :
    (∃ ins, under? (d.step i) "in" = some (.map ins)) ∧ e = d.bind i arg v := by
  unfold setIn at h
  split at h
  · rename_i es hes
    split at h
    · rename_i ins hins
      have he : d.setStep i (.map (put es "in" (.map (put ins arg v)))) = e := by simpa using h
      refine ⟨⟨ins, by simp [hes, hins]⟩, ?_⟩
      rw [← he, bind, bindInput, bindings, hes]
      simp [Doc.map?, hins]
    · simp at h
    · simp at h
  · simp at h

theorem setIn_of_in {ins : Entries} (h : under? (d.step i) "in" = some (.map ins)) :
    d.setIn i arg v = .ok (d.bind i arg v) := by
  unfold setIn
  obtain ⟨es, hstep, -⟩ := mem_of_under? h
  rw [hstep, under?_map] at h
  simp only [h, bind, bindInput, bindings, hstep, Doc.map?, under?_map, Option.bind_some,
    Option.getD_some]
  rfl

theorem setPart_eq_ok (h : d.setPart i k v = .ok e) :
    ∃ es, d.step i = .map es ∧ e = d.setStep i (.map (put es k v)) := by
  unfold setPart at h
  split at h
  · rename_i es hes
    exact ⟨es, hes, by simpa using h.symm⟩
  · simp at h

theorem step_setStep (s : Doc) (h : i < d.steps.length) : (d.setStep i s).step i = s := by
  simp [step, setStep, getD_eq_getElem?_getD, h]

theorem step_setStep_ne (s : Doc) (h : i ≠ j) : (d.setStep i s).step j = d.step j := by
  simp [step, setStep, getD_eq_getElem?_getD, getElem?_set_ne h]

theorem lt_length_of_under? (h : (under? (d.step i) k).isSome) : i < d.steps.length := by
  by_contra hlt
  rw [step, getD_eq_getElem?_getD, getElem?_eq_none (by omega)] at h
  simp [under?, Doc.map?] at h

def core (d : Draft) : Draft :=
  { d with
    graphs := []
    siblings := []
    lastNode := ""
    internals := []
    inputMapping := []
    outputMapping := [] }

@[simp] theorem core_onOwn (f : Graph → Graph) : (d.onOwn f).core = d.core := by
  dsimp only [onOwn]
  split <;> rfl

structure Grows (d e : Draft) : Prop where
  graphs : List.Forall₂ NodesIn d.graphs e.graphs
  siblings : d.siblings.map Graph.nodes <+: e.siblings.map Graph.nodes

theorem Grows.of_eq (hgraphs : e.graphs = d.graphs) (hsiblings : e.siblings = d.siblings) :
    Grows d e := by
  constructor
  · rw [hgraphs]
    exact nodesIn_all _
  · exact hsiblings ▸ prefix_rfl

theorem Grows.trans (h : Grows d e) (h' : Grows e f) : Grows d f :=
  ⟨nodesIn_trans h.graphs h'.graphs, h.siblings.trans h'.siblings⟩

structure Draws (d e : Draft) : Prop where
  core : e.core = d.core
  grows : d.Grows e

namespace Draws

theorem refl (d : Draft) : Draws d d := ⟨rfl, .of_eq rfl rfl⟩

theorem trans (h : Draws d e) (h' : Draws e f) : Draws d f :=
  ⟨h'.core.trans h.core, h.grows.trans h'.grows⟩

theorem onOwn (d : Draft) {p : Graph → Graph} (hp : ∀ g, NodesIn g (p g)) :
    Draws d (d.onOwn p) := by
  refine ⟨core_onOwn p, ?_⟩
  unfold Draft.onOwn
  dsimp only
  split
  · rename_i g hg
    exact ⟨nodesIn_set hg (hp g), prefix_rfl⟩
  · exact .of_eq rfl rfl

theorem onGraph {k : Nat} {p : Graph → Graph} (hp : ∀ g, NodesIn g (p g))
    (h : d.onGraph k p = .ok e) : Draws d e := by
  unfold Draft.onGraph at h
  split at h
  · rename_i g hg
    cases h
    exact ⟨rfl, nodesIn_set hg (hp g), prefix_rfl⟩
  · cases h

theorem onView (d : Draft) (p : GraphData → GraphData) : Draws d (d.onView p) := by
  unfold Draft.onView
  split
  · exact onOwn d fun g => .refl _
  · rename_i g gs hsplit
    have heq : d.siblings = gs.reverse ++ [g] := by
      rw [← reverse_cons, ← hsplit, reverse_reverse]
    refine ⟨rfl, nodesIn_all _, ?_⟩
    rw [heq]
    simp

theorem addNode (h : d.addNode name attrs = .ok e) : Draws d e := by
  obtain ⟨texts, -, rfl⟩ := of_map h
  refine trans (onOwn d fun g => ?_) (onView ..)
  exact Graph.subset_addName (g := g.addLines _)

end Draws

end Draft

end Compile

end WorkflowInference
