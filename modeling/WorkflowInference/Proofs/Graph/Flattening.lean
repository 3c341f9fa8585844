import WorkflowInference.Graph.Basic
import Mathlib.Data.List.Perm.Basic

/-!
Nested graphs made flat. All nodes and edges are kept, each node under the name of its graph, and a
place is entered for every graph inside, before the nodes of that graph. The place itself is entered
under the name of the graph around the graph that holds it.
-/
namespace WorkflowInference.GraphData

open List

mutual

def inner (around : List String) : GraphData → List (List String × GraphData)
  | ⟨name, _, _, subgraphs, _⟩ => innerAll (name :: around) subgraphs

def innerAll (around : List String) : List GraphData → List (List String × GraphData)
  | [] => []
  | g :: gs => (around, g) :: inner around g ++ innerAll around gs

end

def placeIn (g : List String × GraphData) : String × Entries :=
  (g.2.name, if g.1.getD 1 "" = "" then [] else [(.str "parent", .str (g.1.getD 1 ""))])

def named (g : GraphData) : List (String × Entries) :=
  g.nodes.map fun n => (n.1, Entries.put n.2 "parent" (.str g.name))

def Announced (g : List String × GraphData) (ns : List (String × Entries)) : Prop :=
  ∃ us vs ws, ns = us ++ placeIn g :: (vs ++ (flatten (g.1.headD "") g.2).nodes ++ ws)

theorem Announced.mono (h : Announced g ns) (us ws : List (String × Entries)) :
    Announced g (us ++ ns ++ ws) := by
  obtain ⟨us', vs, ws', rfl⟩ := h
  exact ⟨us ++ us', vs, ws' ++ ws, by simp⟩

theorem flattenAll_eq (p : String) : ∀ gs, flattenAll p gs = gs.map (flatten p)
  | [] => rfl
  | g :: gs => by rw [flattenAll, flattenAll_eq p gs, map_cons]

theorem flatten_name (p : String) : ∀ g, (flatten p g).name = g.name
  | ⟨_, _, _, _, _⟩ => by rw [flatten]

theorem flatten_nodes (around : List String) (g : GraphData) : (flatten (around.headD "") g).nodes =
    g.subgraphs.map (fun s => placeIn (g.name :: around, s)) ++
      g.subgraphs.flatMap (fun s => (flatten g.name s).nodes) ++ named g := by
  obtain ⟨name, nodes, edges, subgraphs, ranksame⟩ := g
  rw [flatten, flattenAll_eq]
  cases around <;> simp [placeIn, named, flatten_name, flatMap_map, Function.comp_def]

theorem flatten_edges (p : String) (g : GraphData) :
    (flatten p g).edges = g.subgraphs.flatMap (fun s => (flatten g.name s).edges) ++ g.edges := by
  obtain ⟨name, nodes, edges, subgraphs, ranksame⟩ := g
  rw [flatten, flattenAll_eq]
  simp [flatMap_map]

theorem inner_eq (around : List String) (g : GraphData) : inner around g =
    g.subgraphs.flatMap fun s => (g.name :: around, s) :: inner (g.name :: around) s := by
  obtain ⟨name, nodes, edges, subgraphs, ranksame⟩ := g
  rw [inner]
  induction subgraphs with
  | nil => rfl
  | cons s ss ih => rw [innerAll, ih, flatMap_cons]

theorem subgraph_induction {P : GraphData → Prop} (h : ∀ g, (∀ s ∈ g.subgraphs, P s) → P g)
    (g : GraphData) : P g := by
  refine h g fun s hs => subgraph_induction h s
termination_by sizeOf g
decreasing_by
  obtain ⟨name, nodes, edges, subgraphs, ranksame⟩ := g
  have := sizeOf_lt_of_mem hs
  simp at this ⊢
  omega

structure Flattened (around : List String) (g f : GraphData) : Prop where
  nodes : f.nodes ~ (inner around g).map placeIn ++
    ((around, g) :: inner around g).flatMap fun s => named s.2
  edges : f.edges ~ ((around, g) :: inner around g).flatMap fun s => s.2.edges
  places : ∀ s ∈ inner around g, Announced s f.nodes

/-- Nothing of a tree of graphs is lost when it is made flat, from the outermost graph or any
inside. -/
theorem flatten_keeps_tree (g : GraphData) :
    ∀ around, Flattened around g (flatten (around.headD "") g) := by
  induction g using subgraph_induction with
  | h g ih =>
    intro around
    have hsub := fun s hs => ih s hs (g.name :: around)
    refine ⟨?_, ?_, ?_⟩
    · rw [flatten_nodes, inner_eq around, flatMap_cons, map_flatMap, flatMap_assoc]
      have hinner := Perm.flatMap_left g.subgraphs fun s hs => (hsub s hs).nodes
      have hsplit := hinner.trans (flatMap_append_perm ..).symm
      refine ((hsplit.append_left _).append_right _).trans ?_
      rw [← append_assoc, append_assoc]
      exact (map_append_flatMap_perm ..).append perm_append_comm
    · rw [flatten_edges, inner_eq around, flatMap_cons, flatMap_assoc]
      exact ((Perm.flatMap_left g.subgraphs fun s hs => (hsub s hs).edges).append_right _).trans
        perm_append_comm
    · intro s hs
      rw [inner_eq] at hs
      obtain ⟨t, ht, hs⟩ := mem_flatMap.mp hs
      obtain ⟨as, bs, hsplit⟩ := append_of_mem ht
      rw [flatten_nodes, hsplit, flatMap_append, flatMap_cons]
      rcases mem_cons.mp hs with rfl | hs
      · rw [map_append, map_cons]
        exact ⟨as.map fun s => placeIn (g.name :: around, s), bs.map
          (fun s => placeIn (g.name :: around, s)) ++ as.flatMap fun s => (flatten g.name s).nodes,
          bs.flatMap (fun s => (flatten g.name s).nodes) ++ named g, by simp⟩
      · have hblock := ((hsub t ht).places s hs).mono
          ((as ++ t :: bs).map (fun s => placeIn (g.name :: around, s)) ++ as.flatMap fun s =>
          (flatten g.name s).nodes) (bs.flatMap (fun s => (flatten g.name s).nodes) ++ named g)
        simpa using hblock

end WorkflowInference.GraphData
