import WorkflowInference.Proofs.Compile.Anchors
import WorkflowInference.Proofs.Compile.Capture
import WorkflowInference.Proofs.Compile.Paths

/-!
The tables of references tell the right places. When each workflow has a stem of its own and each
name is given once, an entry of either table stands for one step of the source: a name for the step
that gives it, a waiting input for the one output to which it refers.
-/
namespace WorkflowInference.Compile

open Namespaces List Keyed

variable {name : String} {site : EdgeSite}

def anchorsAt : String × Doc → List Nat → List (String × String)
  | _, [] => []
  | w, [i] => if i < (keysIn w.2).length then anchorsOf (statedStep w.2 i) else []
  | w, i :: j :: is => (innerAt w.2 i).elim [] fun v => anchorsAt v (j :: is)

section Paths

variable {w v u : String × Doc} {is js p : List Nat} {i : Nat} {x : String × String}

theorem anchorsAt_cons (hv : innerAt w.2 i = some v) (hp : p ≠ []) :
    anchorsAt w (i :: p) = anchorsAt v p := by
  obtain ⟨j, js, rfl⟩ := exists_cons_of_ne_nil hp
  rw [anchorsAt, hv, Option.elim_some]

theorem anchorsAt_append (hv : subAt w is = some v) (hp : p ≠ []) :
    anchorsAt w (is ++ p) = anchorsAt v p := by
  induction is generalizing w with
  | nil =>
    cases hv
    rfl
  | cons i is ih =>
    obtain ⟨u, hu, hv⟩ := Option.bind_eq_some_iff.mp hv
    rw [cons_append, anchorsAt_cons hu (by simp [hp]), ih hv]

theorem mem_anchorsAt (hv : subAt w is = some v) (hi : i < (keysIn v.2).length)
    (hx : x ∈ anchorsOf (statedStep v.2 i)) : x ∈ anchorsAt w (is ++ [i]) := by
  rw [anchorsAt_append hv (cons_ne_nil _ _), anchorsAt, if_pos hi]
  exact hx

theorem exists_of_mem_anchorsAt (h : x ∈ anchorsAt w p) :
    ∃ is i v, p = is ++ [i] ∧ subAt w is = some v ∧ i < (keysIn v.2).length ∧
      x ∈ anchorsOf (statedStep v.2 i) := by
  induction p generalizing w with
  | nil => cases h
  | cons i p ih =>
    cases p with
    | nil =>
      rw [anchorsAt] at h
      split at h
      · exact ⟨[], i, w, rfl, rfl, ‹_›, h⟩
      · cases h
    | cons j p =>
      cases hv : innerAt w.2 i with
      | none =>
        rw [anchorsAt, hv] at h
        cases h
      | some v =>
        rw [anchorsAt_cons hv (cons_ne_nil _ _)] at h
        obtain ⟨is, k, u, hp, hu, hk, hx⟩ := ih h
        exact ⟨i :: is, k, u, by rw [hp]; rfl, by rw [subAt, hv, Option.bind_some, hu], hk, hx⟩

theorem lt_of_mem_anchorsAt (h : x ∈ anchorsAt w (i :: p)) : i < (keysIn w.2).length := by
  cases p with
  | nil =>
    rw [anchorsAt] at h
    split at h
    · assumption
    · cases h
  | cons j p =>
    cases hv : innerAt w.2 i with
    | none =>
      rw [anchorsAt, hv] at h
      cases h
    | some v => exact lt_of_innerAt hv

theorem Anchored.mem_anchorsAt {set : Setting} {ns : Namespaces} {n : Nat}
    (h : Anchored set w ns n name site) :
    ∃ p, (name, site.slot) ∈ anchorsAt w p ∧ site.path = ns ++ pathNames set w p := by
  induction h with
  | @own w ns n i name out hi hlt h =>
    refine ⟨[i], ?_, by rw [pathNames_single]⟩
    rw [anchorsAt, if_pos hlt]
    exact h
  | @inner w v ns n i m name site hi hv h ih =>
    obtain ⟨p, hp, hpath⟩ := ih
    have hne : p ≠ [] := by
      rintro rfl
      cases hp
    refine ⟨i :: p, by rw [anchorsAt_cons hv hne]; exact hp, ?_⟩
    rw [hpath, pathNames, hv, append_assoc]
    rfl

theorem anchored_of_mem (set : Setting) (ns : Namespaces) (h : x ∈ anchorsAt w (i :: p))
    (hi : i < n) : ∃ site, Anchored set w ns n x.1 site := by
  induction p generalizing w i n ns with
  | nil =>
    rw [anchorsAt] at h
    split at h
    · exact ⟨_, .own hi ‹_› h⟩
    · cases h
  | cons j p ih =>
    cases hv : innerAt w.2 i with
    | none =>
      rw [anchorsAt, hv] at h
      cases h
    | some v =>
      rw [anchorsAt_cons hv (cons_ne_nil _ _)] at h
      obtain ⟨site, hsite⟩ := ih (ns ++ [nameOf set w i]) h (Nat.lt_succ_self j)
      exact ⟨site, .inner hi hv hsite⟩

end Paths

def RefersTo (w : String × Doc) (is : List Nat) (i : Nat) (a : String) (p : List Nat)
    (out : String) : Prop :=
  ∃ v x, subAt w is = some v ∧ i < (keysIn v.2).length ∧ referenceAt v.2 i a = some x ∧
    (x.text, out) ∈ anchorsAt w p

/-- A reference that cannot be resolved in a workflow: it is made inside of it, to an output
outside. -/
structure Waits (w : String × Doc) (is : List Nat) (v : String × Doc) (js : List Nat) (i : Nat)
    (a : String) (p : List Nat) (out : String) : Prop where
  within : subAt w is = some v
  refers : RefersTo w (is ++ js) i a p out
  outside : ¬ is <+: p

/-- A workflow in which names tell the steps apart, and explicit edges join inputs and outputs of
tools. -/
structure Linked (set : Setting) (w : String × Doc) : Prop where
  named : ∀ is v, subAt w is = some v → Named set v
  stems : ∀ is js v u, subAt w is = some v → subAt w js = some u →
    Path.stem v.1 = Path.stem u.1 → is = js
  silent : ∀ is v i u, subAt w is = some v → innerAt v.2 i = some u →
    providedAt v.2 i = [] ∧ anchorsOf (statedStep v.2 i) = [] ∧ ∀ a, referenceAt v.2 i a = none
  once : ∀ p q x y, x ∈ anchorsAt w p → y ∈ anchorsAt w q → x.1 = y.1 → p = q ∧ x.2 = y.2
  slots : ∀ p, ∀ x ∈ anchorsAt w p, Text.contains x.2 sep = false
  inputs : ∀ is v i a x, subAt w is = some v → i < (keysIn v.2).length →
    referenceAt v.2 i a = some x →
    Text.contains a sep = false
  clear : ∀ is v, subAt w is = some v → Transparent set v
  outputs : ∀ is v i x, subAt w is = some v → i < (keysIn v.2).length →
    x ∈ anchorsOf (statedStep v.2 i) →
    ∃ tool, set.tools.get? ⟨Path.stem ((keysIn v.2).getD i ""), globalSpace⟩ = some tool ∧
    x.2 ∈ outputTexts tool.cwl

def Defines (set : Setting) (w : String × Doc) (x : String × EdgeSite) : Prop :=
  ∃ p, (x.1, x.2.slot) ∈ anchorsAt w p ∧ x.2.path = pathNames set w p

def Calls (set : Setting) (w : String × Doc) (x : String × EdgeSite) : Prop :=
  (∃ p, ∃ y ∈ anchorsAt w p, y.1 = x.1) ∨
    ∀ is v js i a p out, Waits w is v js i a p out → x.1 = raisedName set v js i a →
    x.2 = ⟨pathNames set w p, out⟩

section Tables

variable {set : Setting} {w v : String × Doc} {is p : List Nat} {i : Nat} {out : String}

theorem RefersTo.reference (h : RefersTo w is i a p out) (hv : subAt w is = some v) :
    ∃ x, referenceAt v.2 i a = some x ∧ (x.text, out) ∈ anchorsAt w p := by
  obtain ⟨u, x, hu, -, hx, hp⟩ := h
  rw [hv] at hu
  cases hu
  exact ⟨x, hx, hp⟩

theorem Anchored.defines {n : Nat} (hv : subAt w is = some v)
    (h : Anchored set v (pathNames set w is) n name site) : Defines set w (name, site) := by
  obtain ⟨p, hp, hpath⟩ := h.mem_anchorsAt
  have hne : p ≠ [] := by
    rintro rfl
    cases hp
  exact ⟨is ++ p, by rw [anchorsAt_append hv hne]; exact hp, by rw [hpath, pathNames_append hv]⟩

theorem Defines.site_eq (hl : Linked set w) (h : Defines set w x)
    (hp : (x.1, out) ∈ anchorsAt w p) : x.2 = ⟨pathNames set w p, out⟩ := by
  obtain ⟨q, hq, hpath⟩ := h
  obtain ⟨rfl, hslot⟩ := hl.once q p _ _ hq hp rfl
  obtain ⟨name, path, slot⟩ := x
  dsimp only at hpath hslot
  rw [hpath, hslot]

/-- An input of a step that is kept under its name in the workflow tells the right output, when it
does so for the references of the step itself and for those that wait inside of it. -/
theorem Linked.calls (hl : Linked set w) (hv : subAt w is = some v) (hi : i < (keysIn v.2).length)
    (hown : ∀ p out, RefersTo w is i b p out → site = ⟨pathNames set w p, out⟩)
    (hinner : ∀ u js j a p out, innerAt v.2 i = some u → Waits w (is ++ [i]) u js j a p out →
      b = raisedName set u js j a → site = ⟨pathNames set w p, out⟩) :
    Calls set w (nameOf set v i ++ sep ++ b, site) := by
  right
  rintro ks u js j a p out ⟨hu, hrefers, hout⟩ heq
  dsimp only at heq ⊢
  obtain ⟨z, x, hz, hj, hx, hp⟩ := id hrefers
  rw [subAt_append hu] at hz
  -- the stem at the beginning of the name tells the workflow
  obtain ⟨k, hk, rest, hrest⟩ : ∃ k < (keysIn u.2).length, ∃ rest, raisedName set u js j a =
      nameOf set u k ++ sep ++ rest :=
    raisedName_head hz hj
  have hstem := (hl.named ks u hu).stem_eq (hl.named is v hv) hk hi (hrest.symm.trans heq.symm)
  obtain rfl := hl.stems _ _ _ _ hu hv hstem
  rw [hu] at hv
  cases hv
  rcases raisedName_eq_own (hl.named _ _ hu) hz hj hi heq.symm with ⟨rfl, rfl, rfl⟩ |
    ⟨ls, y, rfl, hy, -, hraised⟩
  · rw [append_nil] at hrefers
    exact hown p out hrefers
  · refine hinner y ls j a p out hy
      ⟨by rw [subAt_concat hu, hy], by simpa using hrefers, fun hpre => hout ?_⟩ hraised.symm
    exact (prefix_append ks [i]).trans hpre

end Tables

theorem mem_setTags (h : x ∈ (setTags t cwd ins ns name calls).2) :
    x ∈ calls ∨ ∃ p ∈ pathInputs, ∃ site, x = (name ++ sep ++ p, site) := by
  simp only [setTags, foldl_cons, foldl_nil] at h
  rcases Keyed.mem_put h with h | rfl
  · rcases Keyed.mem_put h with h | rfl
    · rcases Keyed.mem_put h with h | rfl
      · exact .inl h
      · exact .inr ⟨_, by simp [pathInputs], _, rfl⟩
    · exact .inr ⟨_, by simp [pathInputs], _, rfl⟩
  · exact .inr ⟨_, by simp [pathInputs], _, rfl⟩

section Step

variable {set : Setting} {run : OnceRun sub set t r} {i : Nat}
  {d e : Draft} {w : String × Doc} {is : List Nat}

structure LinkedStep (w : String × Doc) (is : List Nat) (here : StepIn run i d e) : Prop where
  linked : Linked set w
  within : subAt w is = some (t.path, t.yml)
  namespaces : t.namespaces = pathNames set w is
  unaltered : Unaltered r.tree (t.path, t.yml)
  before : ∀ x ∈ d.edgeCalls, Calls set w x
  defs : ∀ x ∈ here.head.named.edgeDefs, Defines set w x
  known : ∀ a x, referenceAt t.yml i a = some x → has here.head.named.edgeDefs x.text
  inner : ∀ inner : SubRun here.head, ∀ x ∈ inner.result.env.edgeCalls, Calls set w x
  free : ∀ inner : SubRun here.head, ∀ p, ∀ y ∈ anchorsAt w p,
    ¬ inner.result.tree.IsInput (.str y.1)

variable {here : StepIn run i d e}

theorem LinkedStep.named (h : LinkedStep w is here) :
    ∀ x ∈ here.head.named.edgeCalls, Calls set w x := by
  have hbrought : ∀ x ∈ here.head.brought.edgeCalls, Calls set w x := by
    intro x hx
    rcases here.head.brought_cases with ⟨⟨inner⟩⟩ | ⟨⟨tool⟩⟩
    · rw [Draft.calls_of_core inner.brought] at hx
      exact (mem_update hx).elim (h.before x) (h.inner inner x)
    · rw [tool.brought] at hx
      exact h.before x hx
  have hprepared : ∀ x ∈ here.head.prepared.edgeCalls, Calls set w x := by
    intro x hx
    rcases here.head.prepared_tags with ⟨hint, tags, rfl, -, hcalls⟩ | ⟨-, -, hcalls⟩
    · rw [hcalls] at hx
      rcases mem_setTags hx with hx | ⟨p, hp, site, rfl⟩
      · exact hbrought x hx
      · rw [here.site_nameOf]
        refine h.linked.calls h.within here.lt_length (fun q out hrefers => ?_)
          fun u js j a q out hu => ?_
        · -- what is told to the step is no reference
          obtain ⟨x, hx, -⟩ := hrefers.reference h.within
          exact absurd hp ((referenceAt_eq_some hx).2.1 (here.keys_getD.trans hint))
        · obtain ⟨inner, -⟩ := here.exists_inner hu
          have hsub := inner.isSub
          rw [hint] at hsub
          cases hsub
    · rw [hcalls] at hx
      exact hbrought x hx
  intro x hx
  rw [here.head.named_spec.2.2.1, here.brought_step h.unaltered] at hx
  rcases mem_enterAnchors hx with hx | ⟨y, hy, rfl⟩
  · exact hprepared x hx
  · exact .inl ⟨is ++ [i], y, mem_anchorsAt h.within here.lt_length hy, rfl⟩

theorem edgeName_eq_ok (h : edgeName x = .ok name) : x.text = name := by
  unfold edgeName at h
  split at h
  · exact Except.ok.inj h
  · cases h

theorem LinkedStep.taken (h : LinkedStep w is here) :
    ∀ x ∈ here.head.taken.edgeCalls, Calls set w x := by
  refine ((here.taken_said h.unaltered).keeps (P := fun d => d.edgeDefs = here.head.named.edgeDefs ∧
    ∀ x ∈ d.edgeCalls, Calls set w x) ?_ ⟨rfl, h.named⟩).2
  rintro k - x y ⟨hdefs, hx⟩ ⟨arg, val, f, rfl, hf, hcore, hsaid⟩
  rw [Draft.calls_of_core hcore, (Draft.Alongside.of_core hcore).defs, hf.alongside.defs]
  refine ⟨hdefs, ?_⟩
  cases hf with
  | unresolved haux htarget hname hdef =>
    -- all that is referred to has been given a name before
    have hhas := h.known _ _ ((hsaid haux).1 _ htarget)
    rw [← hdefs, edgeName_eq_ok hname, has, hdef] at hhas
    cases hhas
  | @deferred target sig name site a b rest haux htarget hname hdef htails =>
    intro z hz
    rcases Keyed.mem_put hz with hz | rfl
    · exact hx z hz
    · have href := (hsaid haux).1 _ htarget
      rw [Site.inName, here.site_nameOf]
      refine h.linked.calls h.within here.lt_length (fun p out hrefers => ?_)
        fun u js j a p out hu => ?_
      · obtain ⟨x', hx', hp⟩ := hrefers.reference h.within
        rw [href] at hx'
        cases hx'
        have hentry := mem_of_lookup hdef
        rw [hdefs] at hentry
        rw [edgeName_eq_ok hname] at hp
        exact (h.defs _ hentry).site_eq h.linked hp
      · rw [(h.linked.silent _ _ _ _ h.within hu).2.2 arg] at href
        cases href
  | _ => exact hx

theorem LinkedStep.supplied (h : LinkedStep w is here) (hx : ∀ z ∈ x.edgeCalls, Calls set w z)
    (hy : Supplies run.scope here.head.site here.head.provided here.head.referred arg x y) :
    ∀ z ∈ y.edgeCalls, Calls set w z := by
  obtain ⟨-, f, hf, hcore, -⟩ := hy
  rw [Draft.calls_of_core hcore]
  cases hf with
  | @passedOn site stems param sig hprov hgiven hreferred hcall hstems hinside hparam hsig =>
    intro z hz
    rcases Keyed.mem_put hz with hz | rfl
    · exact hx z hz
    · rw [Site.inName, here.site_nameOf]
      refine h.linked.calls h.within here.lt_length (fun p out hrefers => ?_)
        fun u js j a p out hu hwaits heq => ?_
      · obtain ⟨x', hx', -⟩ := hrefers.reference h.within
        obtain ⟨-, hpath, v, hv, -⟩ := referenceAt_eq_some hx'
        rw [← here.brought_step h.unaltered] at hv
        rw [here.keys_getD] at hpath
        have hmem := (here.head.named_binding hv hpath).1
        rw [any_eq_false] at hprov
        exact absurd (by simp) (hprov _ hmem)
      · obtain ⟨inner, -⟩ := here.exists_inner hu
        rcases hx _ (mem_of_lookup hcall) with ⟨q, y, hy, hname⟩ | hright
        · -- a name is no input of the workflow that the step is
          refine absurd ?_ (h.free inner q y hy)
          have hparams := here.head.params_eq
          rw [inner.tool] at hparams
          dsimp only at hparams hname
          rw [hname]
          cases hmap : here.head.params with
          | map ins =>
            rw [hmap] at hparams
            change under? here.head.params arg = some param at hparam
            rw [hmap] at hparam
            refine ⟨ins, hparams, ?_⟩
            rw [Entries.at?_str]
            exact Option.isSome_iff_exists.mpr ⟨param, hparam⟩
          | _ =>
            change under? here.head.params arg = some param at hparam
            rw [hmap] at hparam
            cases hparam
        · exact hright _ _ _ _ _ _ _ hwaits heq
  | _ => exact hx

theorem LinkedStep.last (h : LinkedStep w is here) : ∀ x ∈ e.edgeCalls, Calls set w x := by
  obtain ⟨outs, sigs, -, -, s, hlast, -⟩ := here.head.closed_spec
  have hcalls : e.edgeCalls = here.head.bound.edgeCalls := (congrArg Draft.edgeCalls hlast :)
  rw [hcalls]
  exact here.head.bound_chain.keeps (P := fun d => ∀ x ∈ d.edgeCalls, Calls set w x)
    (fun _ _ _ _ hx hy => h.supplied hx hy) h.taken

end Step

namespace PartTree

mutual

def nodes : PartTree → List PartTree
  | .node p ts => .node p ts :: nodesOf ts

def nodesOf : List PartTree → List PartTree
  | [] => []
  | t :: ts => nodes t ++ nodesOf ts

end

theorem mem_nodes_self (q : PartTree) : q ∈ q.nodes := by
  cases q
  exact mem_cons_self

theorem mem_nodes_sub {q p s : PartTree} {i : Nat} (hp : q.subs[i]? = some p) (hs : s ∈ p.nodes) :
    s ∈ q.nodes := by
  have hall : ∀ ts : List PartTree, p ∈ ts → s ∈ nodesOf ts := by
    intro ts hts
    induction ts with
    | nil => cases hts
    | cons t ts ih =>
      rw [nodesOf, mem_append]
      rcases mem_cons.mp hts with rfl | hts
      · exact .inl hs
      · exact .inr (ih hts)
  cases q with
  | node part ts => exact mem_cons_of_mem _ (hall ts (mem_of_getElem? hp))

end PartTree

/-- All that is referred to inside a workflow has been given a name before, in the order in which
steps are compiled. -/
def NamesKnown (defs : EdgeSites) (w : String × Doc) : Prop :=
  ∀ js v j a x, subAt w js = some v → j < (keysIn v.2).length → referenceAt v.2 j a = some x →
    has defs x.text ∨ ∃ p, (∃ y ∈ anchorsAt w p, y.1 = x.text) ∧ p < js ++ [j]

structure LinkedTask (set : Setting) (w : String × Doc) (is : List Nat) (t : Task) : Prop where
  linked : Linked set w
  within : subAt w is = some (t.path, t.yml)
  namespaces : t.namespaces = pathNames set w is
  calls : ∀ x ∈ t.edgeCalls, Calls set w x
  defs : ∀ x ∈ t.edgeDefs, Defines set w x
  known : NamesKnown t.edgeDefs (t.path, t.yml)

structure LinkedDraft (set : Setting) (w : String × Doc) (t : Task) (j : Nat) (d : Draft) :
    Prop where
  calls : ∀ x ∈ d.edgeCalls, Calls set w x
  defs : ∀ x ∈ d.edgeDefs, Defines set w x
  names : ∀ name, has t.edgeDefs name ∨ (∃ ns site, Anchored set (t.path, t.yml) ns j name site) →
    has d.edgeDefs name

section Nested

variable {set : Setting} {n : Nat} {t : Task} {r : Compiled} {w : String × Doc} {is : List Nat}
  {i : Nat} {d e : Draft}

theorem LinkedTask.start (ht : LinkedTask set w is t) : LinkedDraft set w t 0 (.start t o) := by
  refine ⟨ht.calls, ht.defs, ?_⟩
  rintro name (h | ⟨ns, site, h⟩)
  · exact h
  · cases h <;> omega

theorem LinkedDraft.enters (hd : LinkedDraft set w t i d) (hy : y ∈ anchorsAt t.flow (k :: p))
    (hk : k < i) : has d.edgeDefs y.1 := by
  obtain ⟨site, hsite⟩ := anchored_of_mem set [] hy hk
  exact hd.names _ (.inr ⟨[], site, hsite⟩)

theorem LinkedDraft.known (hd : LinkedDraft set w t i d) (ht : LinkedTask set w is t)
    (hi : i < (keysIn t.yml).length) (hx : referenceAt t.yml i a = some x) :
    has d.edgeDefs x.text := by
  rcases ht.known [] _ i a x rfl hi hx with h | ⟨p, ⟨y, hy, hname⟩, hlt⟩
  · exact hd.names _ (.inl h)
  · cases p with
    | nil => cases hy
    | cons k p =>
      rcases cons_lt_cons_iff.mp hlt with hk | ⟨-, hnil⟩
      · rw [← hname]
        exact hd.enters hy hk
      · exact absurd hnil (not_lt_nil p)

variable {run : OnceRun (compileAt set n) set t r} {here : StepIn run i d e}

theorem LinkedTask.inner (ht : LinkedTask set w is t) (hd : LinkedDraft set w t i d)
    (inner : SubRun here.head) :
    LinkedTask set w (is ++ [i])
      (subTask run.scope here.key here.head.site.name inner.yml inner.graph d) := by
  have hat := (here.inner_spec inner).1
  refine ⟨ht.linked, ?_, ?_, hd.calls, hd.defs, ?_⟩
  · rw [subAt_concat ht.within]
    exact hat
  · rw [pathNames_append ht.within, pathNames_single, ← ht.namespaces, ← here.site_nameOf]
    rfl
  · intro js v j a x hv hj hx
    rcases ht.known (i :: js) v j a x (by rw [subAt, hat]; exact hv) hj hx with h |
      ⟨p, ⟨y, hy, hname⟩, hlt⟩
    · exact .inl (hd.names _ (.inl h))
    · cases p with
      | nil => cases hy
      | cons k p =>
        rcases cons_lt_cons_iff.mp hlt with hk | ⟨rfl, hrest⟩
        · rw [← hname]
          exact .inl (hd.enters hy hk)
        · -- a step that is a workflow names no outputs itself
          have hne : p ≠ [] := by
            rintro rfl
            rw [anchorsAt, if_pos here.lt_length,
              (ht.linked.silent _ _ _ _ ht.within hat).2.1] at hy
            cases hy
          rw [anchorsAt_cons (w := t.flow) hat hne] at hy
          exact .inr ⟨p, ⟨y, hy, hname⟩, hrest⟩

theorem LinkedTask.step (ht : LinkedTask set w is t) (here : StepIn run i d e)
    (hun : Unaltered r.tree t.flow)
    (hfree : ∀ q ∈ r.tree.nodes, ∀ p, ∀ y ∈ anchorsAt w p, ¬ q.IsInput (.str y.1))
    (hinner : ∀ {u s ks}, Faithful set n u s → LinkedTask set w ks u → (∀ q ∈ s.tree.nodes, ∀ p,
      ∀ y ∈ anchorsAt w p, ¬ q.IsInput (.str y.1)) → ∀ x ∈ s.env.edgeCalls, Calls set w x)
    (hd : LinkedDraft set w t i d) : LinkedStep w is here := by
  refine ⟨ht.linked, ht.within, ht.namespaces, hun, hd.calls, ?_, fun a x hx =>
    here.head.named_has (hd.known ht here.lt_length hx), ?_, ?_⟩
  · intro x hx
    rw [here.head.named_defs, here.brought_step hun] at hx
    have hpath : pathNames set w (is ++ [i]) = t.namespaces ++ [nameOf set t.flow i] := by
      rw [pathNames_append ht.within, pathNames_single, ht.namespaces]
    rcases mem_enterAnchors hx with hx | ⟨y, hy, rfl⟩
    · rcases here.brought_defs (here.inner_anchored hun hd.defs) hd.defs x hx with h | ⟨v, m, hv, h⟩
      · exact h
      · rw [← hpath] at h
        exact h.defines (by rw [subAt_concat ht.within]; exact hv)
    · refine ⟨is ++ [i], mem_anchorsAt ht.within here.lt_length hy, ?_⟩
      rw [hpath, Scope.path, here.site_nameOf]
      rfl
  · intro inner
    exact hinner (here.inner_faithful hun inner) (ht.inner hd inner) fun q hq =>
      hfree q (PartTree.mem_nodes_sub (here.inner_spec inner).2 hq)
  · intro inner
    exact hfree _ (PartTree.mem_nodes_sub (here.inner_spec inner).2 (PartTree.mem_nodes_self _))

theorem LinkedStep.draft (h : LinkedStep w is here) (hd : LinkedDraft set w t i d) :
    LinkedDraft set w t (i + 1) e := by
  refine ⟨h.last, ?_, fun name hname =>
    here.keeps_names h.unaltered (fun inner ns m name site hsite => ?_) hd.names hname⟩
  · rw [here.head.last_defs]
    exact h.defs
  · exact (here.inner_faithful h.unaltered inner).keeps_names (.inr ⟨ns, m, site, hsite⟩)

theorem Faithful.calls (h : Faithful set n t r) (ht : LinkedTask set w is t)
    (hfree : ∀ q ∈ r.tree.nodes, ∀ p, ∀ y ∈ anchorsAt w p, ¬ q.IsInput (.str y.1)) :
    ∀ x ∈ r.env.edgeCalls, Calls set w x := by
  induction h using Faithful.induction generalizing is with
  | @step _ t _ h run ih =>
    obtain ⟨concl⟩ := run.concluded
    rw [concl.calls]
    refine (run.keeps_steps (P := LinkedDraft set w t) (fun j d e here hd => ?_) ht.start).calls
    exact (ht.step here h.kept hfree (fun hs => ih hs) hd).draft hd

end Nested

end WorkflowInference.Compile
