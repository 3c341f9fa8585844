import WorkflowInference.Proofs.Compile.Leaves
import Mathlib.Data.List.Nodup

/-!
What a compiled workflow offers. Its outputs are the outputs of the tools that it runs in the end,
in the order in which they stand, so a search among the steps before a place is a search among the
tools before it.
-/
namespace WorkflowInference

open Entries Result Namespaces List Option

variable {es outs new : Entries} {ts : List PartTree} {ls : List Leaf} {i : Nat}

theorem find?_of_forall₂ {α β : Type} {R : α → β → Prop} {f : α → Bool} {g : β → Bool} {as : List α}
    {bs : List β} (h : List.Forall₂ R as bs) (hfg : ∀ a b, R a b → f a = g b) :
    as.find? f = none ∧ bs.find? g = none ∨ ∃ a b, as.find? f = some a ∧
      bs.find? g = some b ∧ R a b := by
  induction h with
  | nil => exact .inl ⟨rfl, rfl⟩
  | @cons a b as bs hab _ ih =>
    rw [find?_cons, find?_cons, ← hfg a b hab]
    cases f a with
    | true => exact .inr ⟨a, b, rfl, rfl, hab⟩
    | false => exact ih

theorem Entries.write_fresh (h : Doc.str k ∉ es.map (·.1)) :
    write es (.str k) v = es ++ [(.str k, v)] := by
  rw [write_str]
  exact put_of_get?_none (by simpa [has] using mt has_iff_mem.mp h)

theorem Entries.update_fresh (hstr : ∀ f ∈ fs, ∃ k, f.1 = .str k)
    (hnew : ((es ++ fs).map (·.1)).Nodup) : update es fs = es ++ fs := by
  induction fs generalizing es with
  | nil => simp [update]
  | cons f fs ih =>
    obtain ⟨k, v⟩ := f
    obtain ⟨s, rfl⟩ := hstr _ mem_cons_self
    have hfresh : Doc.str s ∉ es.map (·.1) := by
      rw [map_append, nodup_append] at hnew
      exact fun hmem => hnew.2.2 _ hmem _ mem_cons_self rfl
    change update (write es (.str s) v) fs = _
    rw [write_fresh hfresh, ih (fun g hg => hstr g (mem_cons_of_mem _ hg)) (by simpa using hnew)]
    simp

theorem Entries.foldl_update_fresh {news : List Entries}
    (hstr : ∀ fs ∈ news, ∀ f ∈ fs, ∃ k, f.1 = .str k)
    (hnew : ((es ++ news.flatten).map (·.1)).Nodup) :
    news.foldl update es = es ++ news.flatten := by
  induction news generalizing es with
  | nil => simp
  | cons fs news ih =>
    rw [flatten_cons, ← append_assoc] at hnew
    have hfs : ((es ++ fs).map (·.1)).Nodup := by
      rw [map_append] at hnew
      exact (nodup_append.mp hnew).1
    rw [foldl_cons, update_fresh (hstr fs mem_cons_self) hfs,
      ih (fun gs hgs => hstr gs (mem_cons_of_mem _ hgs)) hnew]
    simp

namespace Compile

namespace PartTree

mutual

def leaves : PartTree → List (List Nat)
  | .node _ [] => [[]]
  | .node _ (t :: ts) => leavesFrom (t :: ts) 0

def leavesFrom : List PartTree → Nat → List (List Nat)
  | [], _ => []
  | t :: ts, n => t.leaves.map (n :: ·) ++ leavesFrom ts (n + 1)

end

theorem leaves_eq {q : PartTree} (h : q.subs ≠ []) : q.leaves = leavesFrom q.subs 0 := by
  cases q with
  | node p ts =>
    cases ts with
    | nil => exact absurd rfl h
    | cons t ts => rw [leaves]; rfl

end PartTree

section Marks

variable {α : Type}

def marks : List PartTree → List (List Leaf) → Nat → List (List (List Nat × Leaf))
  | t :: ts, ls :: lss, n =>
    ((t.leaves.zip ls).map fun x => (n :: x.1, x.2)) :: marks ts lss (n + 1)
  | _, _, _ => []

variable {lss : List (List Leaf)}

theorem marks_flatten (h : List.Forall₂ (fun t ls => t.leaves.length = ls.length) ts lss)
    (n : Nat) :
    (PartTree.leavesFrom ts n).zip lss.flatten = (marks ts lss n).flatten := by
  induction h generalizing n with
  | nil => rfl
  | @cons t ls ts lss hlen _ ih =>
    rw [PartTree.leavesFrom, flatten_cons, zip_append (by rw [length_map, hlen]), ih, marks,
      flatten_cons, zip_map_left]
    rfl

theorem length_leavesFrom (h : List.Forall₂ (fun t ls => t.leaves.length = ls.length) ts lss)
    (n : Nat) :
    (PartTree.leavesFrom ts n).length = lss.flatten.length := by
  induction h generalizing n with
  | nil => rfl
  | @cons t ls ts lss hlen _ ih => simp [PartTree.leavesFrom, hlen, ih]

theorem marks_getElem? (n : Nat) (ht : ts[i]? = some t) (hls : lss[i]? = some ls) :
    (marks ts lss n)[i]? = some ((t.leaves.zip ls).map fun x => ((n + i) :: x.1, x.2)) := by
  induction i generalizing ts lss n with
  | zero =>
    cases ts with
    | nil => cases ht
    | cons u ts =>
      cases lss with
      | nil => cases hls
      | cons ms lss =>
        cases ht
        cases hls
        rfl
  | succ i ih =>
    cases ts with
    | nil => cases ht
    | cons u ts =>
      cases lss with
      | nil => cases hls
      | cons ms lss =>
        rw [marks, getElem?_cons_succ, ih (n + 1) ht hls, show n + 1 + i = n + (i + 1) by omega]

theorem length_marks (h : ts.length = lss.length) (n : Nat) :
    (marks ts lss n).length = lss.length := by
  induction ts generalizing lss n with
  | nil =>
    cases lss with
    | nil => rfl
    | cons ls lss => cases h
  | cons t ts ih =>
    cases lss with
    | nil => cases h
    | cons ls lss => rw [marks, length_cons, ih (by simpa using h), length_cons]

def offers (set : Setting) (xs : List (α × Leaf)) : List (α × Doc × Doc) :=
  xs.flatMap fun x => (x.2.outs set).map fun o => (x.1, o)

variable {set : Setting}

theorem offers_append (xs ys : List (α × Leaf)) :
    offers set (xs ++ ys) = offers set xs ++ offers set ys := by
  simp [offers]

theorem offers_flatten (xss : List (List (α × Leaf))) :
    offers set xss.flatten = (xss.map (offers set)).flatten := by
  induction xss with
  | nil => rfl
  | cons xs xss ih => rw [flatten_cons, offers_append, ih, map_cons, flatten_cons]

theorem offers_map {β : Type} (f : α → β) (xs : List (α × Leaf)) :
    offers set (xs.map fun x => (f x.1, x.2)) = (offers set xs).map fun y => (f y.1, y.2) := by
  simp [offers, flatMap_map, map_flatMap, Function.comp_def]

end Marks

/-- An output of a part is an output of a tool: it comes from there, it fits where that fits, and
its name names no log. -/
def Offered (q : PartTree) (e : Doc × Doc) (x : List Nat × Doc × Doc) : Prop :=
  ∃ k, e.1 = .str k ∧ namesLog k = false ∧ q.provenance k = some (x.1, x.2.1.text) ∧
    ∀ w : Wanted, w.takes e.2 = w.takes x.2.2

structure Brings (set : Setting) (q : PartTree) (ls : List Leaf) (outs : Entries) : Prop where
  length : q.leaves.length = ls.length
  outputs : under? q.part.cwl "outputs" = some (.map outs)
  offered : List.Forall₂ (Offered q) outs (offers set (q.leaves.zip ls))
  distinct : (outs.map (·.1)).Nodup

theorem ToolStep.brings {set : Setting} {l : Leaf} (h : ToolStep set l) {p : Part}
    (hp : p.cwl = l.tool set) : Brings set (.node p []) [l] (l.outs set) := by
  have houts : under? p.cwl "outputs" = some (.map (l.outs set)) := by rw [hp, h.outputs]
  have hleaves : PartTree.leaves (.node p []) = [[]] := by rw [PartTree.leaves]
  have hoffers : offers set ([([], l)] : List (List Nat × Leaf)) = (l.outs set).map fun o =>
      ([], o) := by simp [offers]
  refine ⟨by rw [hleaves]; rfl, houts, ?_, h.distinct⟩
  rw [hleaves, show zip [[]] [l] = [([], l)] from rfl, hoffers, forall₂_map_right_iff, forall₂_same]
  intro e he
  obtain ⟨k, hk, hlog⟩ := h.names e he
  refine ⟨k, hk, hlog, ?_, fun _ => rfl⟩
  have hmem : k ∈ outputTexts p.cwl := by
    rw [outputTexts_eq houts]
    exact mem_map.mpr ⟨e, he, by rw [hk]; rfl⟩
  rw [PartTree.provenance, if_pos hmem, hk]
  rfl

def BroughtBy (c : Scope) (d : Draft) (i : Nat) (new : Entries) : Prop :=
  ∃ tool scattered, d.tools[i]? = some tool ∧ (d.step i).holds "scatter" = .ok scattered ∧
    (d.outputs.getD i []).mapM (outputOf (outStepName c i tool) scattered) = .ok new

theorem workflowOutputs_parts (h : workflowOutputs c d = .ok r) :
    ∃ news, List.Forall₂ (BroughtBy c d) (range c.keys.length) news ∧
      r.2 = news.foldl update [] := by
  have hchain := foldlM_eq_ok h
  have hall : ∀ {is : List Nat} {acc acc' : Draft × Entries},
      Chain (fun i acc acc' => stepOutputs c acc i = .ok acc') is acc acc' → acc.1.core = d.core →
        ∃ news, List.Forall₂ (BroughtBy c d) is news ∧ acc'.2 = news.foldl update acc.2 := by
    intro is acc acc' hchain
    induction hchain with
    | nil acc => exact fun _ => ⟨[], .nil, rfl⟩
    | @cons i is acc acc' last hstep _ ih =>
      intro hcore
      obtain ⟨hdraws, tool, scattered, new, htool, hscattered, hnew, heq⟩ := stepOutputs_spec hstep
      obtain ⟨news, hnews, hlast⟩ := ih (hdraws.core.trans hcore)
      have halong := Draft.Alongside.of_core hcore
      rw [halong.tools] at htool
      rw [halong.outputs] at hnew
      rw [Draft.step_congr (Draft.steps_of_core hcore)] at hscattered
      exact ⟨new :: news, .cons ⟨tool, scattered, htool, hscattered, hnew⟩ hnews, by
        rw [hlast, heq]; rfl⟩
  exact hall hchain rfl

section Once

variable {set : Setting} {run : OnceRun sub set t r}
  {steps : List Doc} {lss : List (List Leaf)} {m : Nat} {name : String}

theorem OnceRun.outputs_at (run : OnceRun sub set t r) (hm : m < run.start.keys.length)
    (htool : run.last.tools[m]? = some tool)
    (houts : under? tool.cwl "outputs" = some (.map outs)) :
    outputSigs outs = .ok (run.last.outputs.getD m []) := by
  obtain ⟨place⟩ := run.placeAt hm
  obtain ⟨outs', sigs, houts', hsigs, houtputs⟩ := place.here.head.outputs_eq
  rw [place.tools_eq] at htool
  cases htool
  rw [houts] at houts'
  cases houts'
  obtain ⟨rest, hrest⟩ := place.later.outputs
  have hlen := place.here.progress.outputs
  rw [hsigs, ← hrest, houtputs, getD_eq_getElem?_getD, append_assoc,
    getElem?_append_right (Nat.le_of_eq hlen), hlen, Nat.sub_self]
  rfl

theorem Listed.last_scatter (h : Listed run steps lss) (hm : m < run.start.keys.length) :
    (run.last.step m).holds "scatter" = .ok false := by
  obtain ⟨place⟩ := run.placeAt hm
  obtain ⟨es, fs, hes, -, -⟩ := run.step_fields hm
  have hnone : under? (run.last.step m) "scatter" = none := by
    rw [place.later.steps m (Nat.le_refl m), place.here.head.kept_field (by decide)]
    exact h.scatter place.here
  rw [hes, under?_map] at hnone
  rw [hes, Doc.holds, has, hnone]
  rfl

theorem Listed.noLog (h : Listed run steps lss) (hm : m < run.start.keys.length) :
    namesLog (run.scope.keys.getD m "") = false := by
  have hkey : run.start.keys[m]? = some (run.scope.keys.getD m "") := getElem?_getD hm ""
  obtain ⟨x, ls, -, -, hx, hlists⟩ := h.at_key hkey
  cases hlists with
  | tool step =>
    rw [Doc.str.inj (hx.symm.trans step.key)]
    exact step.noLog
  | inner hkey' _ hlog =>
    rw [Doc.str.inj (hx.symm.trans hkey')]
    exact hlog

def Raised (name : String) (e n : Doc × Doc) : Prop :=
  n.1 = .str (name ++ sep ++ e.1.text) ∧ ∀ w : Wanted, w.takes n.2 = w.takes e.2

theorem raised_of_outputSigs (hsigs : outputSigs outs = .ok sigs)
    (hnew : sigs.mapM (outputOf name false) = .ok new) : List.Forall₂ (Raised name) outs new := by
  replace hsigs := mapM_eq_ok hsigs
  replace hnew := mapM_eq_ok hnew
  induction hsigs generalizing new with
  | nil =>
    cases hnew
    exact .nil
  | @cons e f es fs hef _ ih =>
    cases hnew with
    | cons hfn hrest =>
      obtain ⟨sig, hsig, rfl⟩ := of_map hef
      exact .cons ⟨(outputOf_spec hfn).1, fun w => w.takes_outputOf hsig hfn⟩ (ih hrest)

theorem Listed.broughtBy (h : Listed run steps lss) (hcore : f.core = run.last.core)
    (hm : m < run.start.keys.length) (hp : r.tree.subs[m]? = some p)
    (hbrings : Brings set p ls outs) (hnew : BroughtBy run.scope f m new) :
    List.Forall₂ (Raised (stepName run.scope.stem m (run.scope.keys.getD m ""))) outs new ∧
      List.Forall₂ (Offered r.tree) new
      (offers set ((p.leaves.zip ls).map fun x => (m :: x.1, x.2))) := by
  obtain ⟨tool, scattered, htool, hscattered, hnew⟩ := hnew
  have halong := Draft.Alongside.of_core hcore
  rw [halong.tools] at htool
  rw [halong.outputs] at hnew
  rw [Draft.step_congr (Draft.steps_of_core hcore), h.last_scatter hm] at hscattered
  cases hscattered
  have hplaced := h.placedRun
  rw [hplaced.placed.named m hm tool htool] at hnew
  obtain ⟨tool', p', htool', hp', hcwl⟩ := run.runAt_eq hm
  cases htool.symm.trans htool'
  cases hp.symm.trans hp'
  have houts : under? tool.cwl "outputs" = some (.map outs) := by rw [← hcwl]; exact hbrings.outputs
  have hraised := raised_of_outputSigs (run.outputs_at hm htool houts) hnew
  refine ⟨hraised, ?_⟩
  rw [offers_map, forall₂_map_right_iff]
  have hoffered := hbrings.offered
  generalize offers set (p.leaves.zip ls) = xs at hoffered
  clear hnew houts hbrings
  induction hraised generalizing xs with
  | nil =>
    cases hoffered
    exact .nil
  | @cons e n outs new hen _ ih =>
    cases hoffered with
    | @cons _ x _ xs hex hrest =>
      refine .cons ?_ (ih xs hrest)
      obtain ⟨k, hk, hlog, hfrom, htakes⟩ := hex
      have hkey :
          n.1 = .str (stepName run.scope.stem m (run.scope.keys.getD m "") ++ sep ++ k) := by
        rw [hen.1, hk]
        rfl
      refine ⟨_, hkey, namesLog_outName h.bare.noLog (h.noLog hm) hlog, ?_, fun w =>
        (hen.2 w).trans (htakes w)⟩
      rw [hplaced.provenance_eq h.bare.outputs hm hp (PartTree.mem_outputTexts_of_provenance hfrom),
        hfrom]
      rfl

theorem Raised.keys_eq (h : List.Forall₂ (Raised name) outs new) :
    new.map (·.1) = (outs.map (·.1)).map fun k => .str (name ++ sep ++ k.text) := by
  induction h with
  | nil => rfl
  | cons hen _ ih => rw [map_cons, map_cons, map_cons, hen.1, ih]

def Listed.Parts (_ : Listed run steps lss) : Prop :=
  ∀ (m : Nat) p ls, r.tree.subs[m]? = some p → lss[m]? = some ls → ∃ outs, Brings set p ls outs

theorem Offered.isStr (h : List.Forall₂ (Offered q) outs xs) : ∀ e ∈ outs, ∃ k, e.1 = .str k := by
  induction h with
  | nil => simp
  | cons hex _ ih =>
    obtain ⟨k, hk, -⟩ := hex
    exact forall_mem_cons.mpr ⟨⟨k, hk⟩, ih⟩

section News

variable {news : List Entries} {f : Draft}

section

variable (h : Listed run steps lss) (hparts : h.Parts) (hcore : f.core = run.last.core)
  (hnews : List.Forall₂ (BroughtBy run.scope f) (range run.scope.keys.length) news)

include h hparts hcore hnews

theorem Listed.news_at (hnew : news[m]? = some new) :
    ∃ p ls outs, r.tree.subs[m]? = some p ∧ lss[m]? = some ls ∧ Brings set p ls outs ∧
      List.Forall₂ (Raised (stepName run.scope.stem m (run.scope.keys.getD m ""))) outs new ∧
      List.Forall₂ (Offered r.tree) new
      (offers set ((p.leaves.zip ls).map fun x => (m :: x.1, x.2))) := by
  obtain ⟨_, hj, hby⟩ := forall₂_at hnews.flip hnew
  obtain ⟨hm, rfl⟩ := List.getElem?_eq_some_iff.mp hj
  rw [List.length_range] at hm
  rw [List.getElem_range] at hby
  obtain ⟨p, hp⟩ : ∃ p, r.tree.subs[m]? = some p :=
    ⟨_, getElem?_eq_getElem (by rw [run.subs_length]; exact hm)⟩
  obtain ⟨ls, hls⟩ : ∃ ls, lss[m]? = some ls :=
    ⟨_, getElem?_eq_getElem (by rw [h.length_eq]; exact hm)⟩
  obtain ⟨outs, hbrings⟩ := hparts m p ls hp hls
  exact ⟨p, ls, outs, hp, hls, hbrings, h.broughtBy hcore hm hp hbrings hby⟩

theorem Listed.news_nodup :
    (news.flatten.map (·.1)).Nodup := by
  rw [map_flatten, nodup_flatten]
  constructor
  · intro ks hks
    obtain ⟨new, hmem, rfl⟩ := mem_map.mp hks
    obtain ⟨m, hm⟩ := getElem?_of_mem hmem
    obtain ⟨p, ls, outs, -, -, hbrings, hraised, -⟩ := h.news_at hparts hcore hnews hm
    have hstr := Offered.isStr hbrings.offered
    rw [Raised.keys_eq hraised]
    refine hbrings.distinct.map_on ?_
    intro x hx y hy hxy
    obtain ⟨e, he, rfl⟩ := mem_map.mp hx
    obtain ⟨g, hg, rfl⟩ := mem_map.mp hy
    obtain ⟨k, hk⟩ := hstr e he
    obtain ⟨l, hl⟩ := hstr g hg
    rw [hk, hl] at hxy ⊢
    simpa [Doc.text] using hxy
  · rw [pairwise_map, pairwise_iff_getElem]
    intro i j hi hj hij k hki hkj
    obtain ⟨-, -, outs, -, -, -, hraised, -⟩ :=
      h.news_at hparts hcore hnews (getElem?_eq_getElem hi)
    obtain ⟨-, -, outs', -, -, -, hraised', -⟩ :=
      h.news_at hparts hcore hnews (getElem?_eq_getElem hj)
    rw [Raised.keys_eq hraised] at hki
    rw [Raised.keys_eq hraised'] at hkj
    obtain ⟨e, -, rfl⟩ := mem_map.mp hki
    obtain ⟨g, -, heq⟩ := mem_map.mp hkj
    rw [Doc.str.injEq, String.append_assoc, String.append_assoc] at heq
    have := (stepName_append_inj heq).1
    omega

end

end News

section

variable (h : Listed run steps lss) (hparts : h.Parts)

include h hparts

theorem Listed.lengths :
    List.Forall₂ (fun (p : PartTree) (ls : List Leaf) =>
      p.leaves.length = ls.length) r.tree.subs lss := by
  rw [forall₂_iff_get]
  refine ⟨by rw [run.subs_length, h.length_eq], fun i hi hi' => ?_⟩
  obtain ⟨outs, hbrings⟩ := hparts i _ _ (getElem?_eq_getElem hi) (getElem?_eq_getElem hi')
  exact hbrings.length

theorem Listed.zip_leaves :
    r.tree.leaves.zip lss.flatten = (marks r.tree.subs lss 0).flatten := by
  rw [PartTree.leaves_eq run.subs_ne]
  exact marks_flatten (h.lengths hparts) 0

theorem Listed.brings : ∃ outs, Brings set r.tree lss.flatten outs := by
  obtain ⟨concl⟩ := run.concluded
  obtain ⟨news, hnews, hbrought⟩ := workflowOutputs_parts concl.bringing
  have hnodup := h.news_nodup hparts concl.drawn_core hnews
  have hoffered :
      List.Forall₂ (Offered r.tree) news.flatten (offers set (r.tree.leaves.zip lss.flatten)) := by
    rw [h.zip_leaves hparts, offers_flatten]
    refine rel_flatten (forall₂_iff_get.mpr ⟨?_, fun i hi hi' => ?_⟩)
    · rw [length_map, length_marks (by rw [run.subs_length, h.length_eq]),
        h.length_eq, ← hnews.length_eq, List.length_range]
      rfl
    · obtain ⟨p, ls, outs, hp, hls, -, -, hall⟩ :=
        h.news_at hparts concl.drawn_core hnews (getElem?_eq_getElem hi)
      have hmark := marks_getElem? 0 hp hls
      rw [Nat.zero_add] at hmark
      have hat : ((marks r.tree.subs lss 0).map (offers set))[i]? =
          some (offers set ((p.leaves.zip ls).map fun x => (i :: x.1, x.2))) := by
        rw [getElem?_map, hmark]
        rfl
      rw [get_eq_getElem, get_eq_getElem, (List.getElem?_eq_some_iff.mp hat).2]
      exact hall
  have hstr := Offered.isStr hoffered
  have hlist : concl.brought.2 = news.flatten := by
    have hfold : news.foldl update [] = [] ++ news.flatten :=
      foldl_update_fresh (fun fs hfs e he => hstr e (mem_flatten.mpr ⟨fs, hfs, he⟩)) hnodup
    rw [hbrought, hfold, nil_append]
  refine ⟨news.flatten, ?_, ?_, hoffered, hnodup⟩
  · rw [PartTree.leaves_eq run.subs_ne]
    exact length_leavesFrom (h.lengths hparts) 0
  · have hfresh : update [] news.flatten = [] ++ news.flatten := update_fresh hstr hnodup
    rw [concl.part, under?_map, concl.outputs, run.stated_eq_nil concl h.bare.outputs, hlist,
      hfresh, nil_append]

end

def marksBefore (r : Compiled) (lss : List (List Leaf)) (i : Nat) : List (List Nat × Leaf) :=
  ((marks r.tree.subs lss 0).take i).flatten

theorem marksBefore_succ (hp : r.tree.subs[i]? = some p) (hls : lss[i]? = some ls) :
    marksBefore r lss (i + 1) = marksBefore r lss i ++ (p.leaves.zip ls).map fun x =>
      (i :: x.1, x.2) := by
  have hmark := marks_getElem? 0 hp hls
  rw [Nat.zero_add] at hmark
  rw [marksBefore, marksBefore, take_add_one, hmark, toList_some, flatten_append]
  simp

theorem lastFit_marks {outs : Nat → Entries} (w : Wanted)
    (h : ∀ j < i, ∃ p ls, r.tree.subs[j]? = some p ∧ lss[j]? = some ls ∧ Brings set p ls (outs j)) :
    lastFit w outs i = none ∧
      ((offers set (marksBefore r lss i)).reverse.find? fun x => w.takes x.2.2) = none ∨
      ∃ j o x p z, lastFit w outs i = some (j, o) ∧ j < i ∧
        ((offers set (marksBefore r lss i)).reverse.find? fun x => w.takes x.2.2) =
        some (j :: z, x) ∧
        r.tree.subs[j]? = some p ∧ p.provenance o = some (z, x.1.text) := by
  induction i with
  | zero => exact .inl ⟨rfl, rfl⟩
  | succ i ih =>
    obtain ⟨p, ls, hp, hls, hbrings⟩ := h i (Nat.lt_succ_self i)
    have hrev := forall₂_reverse_iff.mpr hbrings.offered
    have hfind := find?_of_forall₂ hrev (f := fun e => w.takes e.2) (g := fun x => w.takes x.2.2)
      fun e x hex => by obtain ⟨-, -, -, -, htakes⟩ := hex; exact htakes w
    rw [marksBefore_succ hp hls, offers_append, reverse_append, find?_append,
      offers_map, ← map_reverse, find?_map, lastFit]
    rcases hfind with ⟨hnone, hnone'⟩ | ⟨e, x, he, hx, k, hk, -, hfrom, -⟩
    · have hnone' : find? ((fun x : List Nat × Doc × Doc => w.takes x.2.2) ∘ fun y =>
          (i :: y.1, y.2)) (offers set (p.leaves.zip ls)).reverse = none := hnone'
      rw [hnone, hnone', map_none, none_or]
      rcases ih fun j hj => h j (Nat.lt_succ_of_lt hj) with hleft | ⟨j, o, x, q, z, hfit, hj, hrest⟩
      · exact .inl hleft
      · exact .inr ⟨j, o, x, q, z, hfit, Nat.lt_succ_of_lt hj, hrest⟩
    · have hx : find? ((fun x : List Nat × Doc × Doc => w.takes x.2.2) ∘ fun y => (i :: y.1, y.2))
          (offers set (p.leaves.zip ls)).reverse = some x := hx
      rw [he, hx, map_some, some_or]
      refine .inr ⟨i, k, x.2, p, x.1, ?_, Nat.lt_succ_self i, rfl, hp, hfrom⟩
      exact congrArg (fun d : Doc => some (i, d.text)) hk

theorem Listed.parts_of (h : Listed run steps lss) (hun : Unaltered r.tree t.flow)
    (hsub : ∀ {u s ls}, (sub u).Yields s → Unaltered s.tree u.flow → Lists set u.path u.yml ls →
      ∃ outs, Brings set s.tree ls outs) : h.Parts := by
  intro m p ls hp hls
  obtain ⟨place⟩ := run.placeAt (run.lt_of_sub hp)
  rcases h.at_step place.here with ⟨l, hl, htool, hkey, -, ⟨tool⟩⟩ |
    ⟨ls', inner, hls', -, -, hlists⟩
  · cases hls.symm.trans hl
    have hpart := place.here.subs_eq (p := .node tool.part []) (by rw [tool.brought])
    cases hp.symm.trans hpart
    exact ⟨_, htool.brings (tool.cwl.trans (h.tool_eq place.here htool hkey tool))⟩
  · cases hls.symm.trans hls'
    cases hp.symm.trans (place.here.inner_spec inner).2
    exact hsub inner.running (place.here.inner_kept hun inner) hlists

end Once

theorem Faithful.brings {set : Setting} {n : Nat} {t : Task} {r : Compiled} (h : Faithful set n t r)
    (hl : Lists set t.path t.yml ls) : ∃ outs, Brings set r.tree ls outs := by
  induction h using Faithful.induction generalizing ls with
  | step h run ih =>
    obtain ⟨steps, lss, rfl, hlisted⟩ := hl.listed run
    exact hlisted.brings (hlisted.parts_of h.kept fun hs hun => ih ⟨hs, hun⟩)

end Compile

end WorkflowInference
