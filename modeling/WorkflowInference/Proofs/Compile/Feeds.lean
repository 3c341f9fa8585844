import WorkflowInference.Proofs.Compile.Sought

/-!
What the tools of a workflow are fed with. The searches of the workflows around a tool find together
what one search finds that goes backwards over all tools before the place.
-/
namespace WorkflowInference.Compile

open Entries List Option PartTree
open Yaml (inlineKey)

variable {α : Type} {q : PartTree} {path : List Nat} {d e : Draft} {x : Doc × Doc}
  {xs : List (List Nat × Leaf)}

inductive Feed (α : Type) where
  | output (mark : α) (out : String)
  | value (v : Doc)
  | unbound

def Feed.map {α β : Type} (f : α → β) : Feed α → Feed β
  | .output m o => .output (f m) o
  | .value v => .value v
  | .unbound => .unbound

def Feed.output? {α : Type} : Feed α → Option (α × String)
  | .output m o => some (m, o)
  | _ => none

namespace Leaf

variable (set : Setting) (l : Leaf)

def required : List String :=
  ((do requiredArgs ⟨"",
    l.tool set⟩ (← (l.tool set).field "inputs") : Result (List String)).toOption).getD []

structure Seeks (a : String) (w : Wanted) : Prop where
  stated : get? (l.ins set) a = none
  required : a ∈ l.required set
  infer : set.options.noInference = false
  wanted : wantedBy (l.tool set) a = .ok w

/-- What an input is fed with when the tool comes after others: the value that the step provides for
it, or the first output that fits, from the last of the others backwards. -/
def feedAmong {α : Type} (xs : List (α × Leaf)) (a : String) : Feed α :=
  match get? (l.ins set) a with
  | some val => (((encoded a val).toOption).bind (valueIn a)).elim .unbound .value
  | none =>
    if a ∈ l.required set ∧ set.options.noInference = false then
      (((wantedBy (l.tool set) a).toOption).bind (search set · xs)).elim .unbound fun x =>
        .output x.1 x.2.1.text
    else .unbound

variable {set l}

theorem feedAmong_map {β : Type} (f : α → β) (xs : List (α × Leaf)) (a : String) :
    l.feedAmong set (xs.map fun x => (f x.1, x.2)) a = (l.feedAmong set xs a).map f := by
  unfold feedAmong
  cases get? (l.ins set) a with
  | some val =>
    dsimp only
    cases ((encoded a val).toOption).bind (valueIn a) <;> rfl
  | none =>
    dsimp only
    split
    · cases (wantedBy (l.tool set) a).toOption with
      | none => rfl
      | some w =>
        rw [bind_some, bind_some, search_map]
        cases search set w xs <;> rfl
    · rfl

theorem required_eq {tool : Tool} {params : Doc} {required : List String}
    (htool : tool.cwl = l.tool set) (hparams : under? tool.cwl "inputs" = some params)
    (h : requiredArgs tool params = .ok required) : l.required set = required := by
  rw [htool] at hparams
  have hfield : (l.tool set).field "inputs" = .ok params := field_eq_ok.mpr hparams
  have hargs : requiredArgs ⟨"", l.tool set⟩ params = .ok required := by
    rw [← htool]
    exact h
  rw [Leaf.required, hfield]
  change ((requiredArgs ⟨"", l.tool set⟩ params).toOption).getD [] = _
  rw [hargs]
  rfl

theorem Clear.ins_inline (h : l.Clear set) (hraw : set.options.allowRaw)
    (hv : get? (l.ins set) a = some v) : isAuxiliary a ∨ (under? v inlineKey).isSome := by
  unfold ins at hv
  split at hv
  · simp only [setTags, foldl_cons, foldl_nil] at hv
    have hinline : ∀ s : String, (under? (Doc.obj [(inlineKey, .str s)]) inlineKey).isSome :=
      fun _ => rfl
    rw [get?_put, get?_put, get?_put] at hv
    split at hv
    · cases hv
      exact .inr (hinline _)
    split at hv
    · cases hv
      exact .inr (hinline _)
    split at hv
    · cases hv
      exact .inr (hinline _)
    · exact h.inline hraw a v hv
  · exact h.inline hraw a v hv

end Leaf

namespace PartTree

def originOf (q : PartTree) (path : List Nat) (a : String) : Option Origin :=
  q.origin path.dropLast (path.getLastD 0) a

theorem originOf_cons (hp : q.subs[i]? = some p) (hpath : path ≠ []) :
    q.originOf (i :: path) a = (p.originOf path a).bind fun
      | .output path out => some (.output (i :: path) out)
      | .input name => (q.sourceAt i name).bind q.follow := by
  obtain ⟨j, js, rfl⟩ := exists_cons_of_ne_nil hpath
  rw [originOf, dropLast_cons_cons, origin, hp, bind_some]
  rfl

mutual

theorem leaves_nodup : ∀ q : PartTree, q.leaves.Nodup
  | .node _ [] => by simp [leaves]
  | .node _ (t :: ts) => by
    rw [leaves]
    exact (leavesFrom_nodup (t :: ts) 0).1

theorem leavesFrom_nodup : ∀ (ts : List PartTree) (n : Nat),
    (leavesFrom ts n).Nodup ∧ ∀ p ∈ leavesFrom ts n, ∃ m js, n ≤ m ∧ p = m :: js
  | [], _ => by simp [leavesFrom]
  | t :: ts, n => by
    obtain ⟨hrest, hheads⟩ := leavesFrom_nodup ts (n + 1)
    rw [leavesFrom]
    refine ⟨nodup_append.mpr ⟨(leaves_nodup t).map (cons_injective), hrest, ?_⟩, fun p hp => ?_⟩
    · intro p hp q hq heq
      obtain ⟨js, -, rfl⟩ := mem_map.mp hp
      obtain ⟨m, ks, hm, rfl⟩ := hheads q hq
      have := (cons.inj heq).1
      omega
    · rcases mem_append.mp hp with hp | hp
      · obtain ⟨js, -, rfl⟩ := mem_map.mp hp
        exact ⟨n, js, Nat.le_refl n, rfl⟩
      · obtain ⟨m, ks, hm, rfl⟩ := hheads p hp
        exact ⟨m, ks, by omega, rfl⟩

end

theorem ne_nil_of_mem_leaves (h : q.subs ≠ []) (hp : p ∈ q.leaves) : p ≠ [] := by
  rw [leaves_eq h] at hp
  obtain ⟨m, js, -, rfl⟩ := (leavesFrom_nodup q.subs 0).2 p hp
  exact cons_ne_nil m js

end PartTree

inductive Fed (set : Setting) (r : Compiled) (xs : List (List Nat × Leaf)) (l : Leaf) (a : String) :
    Option Origin → Prop
  | value {val val' v : Doc} {name : String} (hval : get? (l.ins set) a = some val)
      (henc : encoded a val = .ok val') (hv : valueIn a val' = some v) (held : has r.env.given name)
      (hgiven : ∀ x ∈ r.env.given, x.1.text = name → under? x.2 "value" = some v) :
      Fed set r xs l a (some (.input name))
  | found {w : Wanted} {x : List Nat × Doc × Doc} (seeks : l.Seeks set a w)
      (hx : search set w xs = some x) : Fed set r xs l a (some (.output x.1 x.2.1.text))
  | raised {w : Wanted} {name : String} (seeks : l.Seeks set a w) (hx : search set w xs = none)
      (hw : wantedBy r.tree.part.cwl name = .ok w) (hnew : ∀ x ∈ r.env.given, x.1.text ≠ name) :
      Fed set r xs l a (some (.input name))
  | idle (hval : get? (l.ins set) a = none) (hleft : a ∉ l.required set ∨ set.options.noInference) :
      Fed set r xs l a none

theorem not_has_of_text (h : ∀ x ∈ es, x.1.text ≠ k) : has es k = false := by
  rw [Bool.eq_false_iff, Ne, has_iff_mem]
  intro hmem
  obtain ⟨x, hx, hkey⟩ := mem_map.mp hmem
  exact h x hx (by rw [hkey]; rfl)

section Once

variable {set : Setting} {run : OnceRun sub set t r} {steps : List Doc} {lss : List (List Leaf)}
  {ls : List Leaf} {P : Nat → Draft → Prop} {i : Nat} {a : String}

theorem Listed.inner_provided (h : Listed run steps lss) (here : StepIn run i d e)
    (inner : SubRun here.head) (hargs : under? (d.step i) "parentargs" = some (.map [])) :
    here.head.provided = [] := by
  obtain ⟨id, hid⟩ := h.inner_step here inner hargs
  have hnone : under? (here.head.brought.step i) "in" = none := by
    rw [hid]
    rfl
  have hsub := inner.isSub
  rcases prepare_in here.head.preparing with ⟨-, hin⟩ | ⟨hinterp, -⟩
  · rw [here.head.ins_eq, hnone, getD_none] at hin
    have hmembers := here.head.members_eq
    rw [some.inj hin] at hmembers
    exact (Except.ok.inj hmembers).symm
  · rw [hinterp] at hsub
    cases hsub

theorem Listed.tool_bindings (h : Listed run steps lss) (here : StepIn run i d e)
    (hl : ToolStep set l) (hkey : here.key = l.key) (hstep : d.step i = l.step)
    (tool : ToolRun here.head) :
    bindings (here.head.prepared.step i) = l.ins set ∧
      bindings (here.head.named.step i) = l.ins set := by
  have hcls : here.head.cls = .str "CommandLineTool" := by
    have hcls := here.head.cls_eq
    rw [h.tool_eq here hl hkey tool, hl.cls] at hcls
    exact (some.inj hcls).symm
  have howned : here.head.owned = here.head.prepared := by
    have howning := here.head.owning
    rw [hcls, if_neg (by simp)] at howning
    exact (Except.ok.inj howning).symm
  have hbrought : bindings (here.head.brought.step i) = bindings l.step := by
    rw [tool.brought]
    exact congrArg bindings hstep
  have hprepared : bindings (here.head.prepared.step i) = l.ins set := by
    rw [Leaf.ins, ← hkey, ← hbrought]
    rcases here.head.prepared_tags with ⟨hinterp, tags, rfl, hbindings, -⟩ | ⟨hinterp, hbindings, -⟩
    · have hinterp : here.key = interpreterKey := hinterp
      rw [if_pos hinterp, hbindings]
      rfl
    · have hinterp : here.key ≠ interpreterKey := hinterp
      rw [if_neg hinterp, hbindings]
  exact ⟨hprepared, by rw [here.head.named_bindings, howned, hprepared]⟩

namespace ListedAt

variable {h : Listed run steps lss} {place : StepAt run P i} {l : Leaf}

section

variable (hat : ListedAt h place)

include hat

theorem given_at (hx : x ∈ r.env.given)
    (htext : x.1.text = place.here.head.site.inName a) : x ∈ place.here.head.taken.given := by
  have hname := h.site_name place.here
  obtain ⟨concl⟩ := run.concluded
  rw [concl.given] at hx
  have hafter := hat.keeps.given x hx a (by rw [htext, Site.inName, hname])
  rwa [place.here.head.last_rest.1, (place.here.head.bound_adds hname).1] at hafter

theorem inputs_new (hprov : .str a ∉ place.here.head.provided) :
    ∀ x ∈ place.here.head.taken.inputs, x.1.text ≠ place.here.head.site.inName a := by
  intro x hx htext
  rcases place.here.head.taken_adds.2 x hx with hx | ⟨b, hb, hkey⟩
  · exact hat.untouched.inputs i (Nat.le_refl i) x hx a
      (by rw [htext, Site.inName, h.site_name place.here])
  · rw [hkey] at htext
    cases Site.inName_inj htext
    exact hprov hb

theorem fed_tool (hl : ToolStep set l) (hclear : l.Clear set) (hkey : place.here.key = l.key)
    (hstep : place.before.step i = l.step) (tool : ToolRun place.here.head) (a : String) :
    Fed set r (marksBefore r lss i) l a ((r.tree.sourceAt i a).bind r.tree.follow) := by
  have hname := h.site_name place.here
  have hcwl := h.tool_eq place.here hl hkey tool
  have hrequired : l.required set = place.here.head.required :=
    Leaf.required_eq hcwl place.here.head.params_eq place.here.head.requiring
  obtain ⟨hprepared, hnamed⟩ := h.tool_bindings place.here hl hkey hstep tool
  have hbrought : ∀ x ∈ place.here.head.brought.given, x.1.text ≠
      place.here.head.site.inName a := by
    rw [tool.brought, Site.inName, hname]
    intro x hx
    exact hat.untouched.given i (Nat.le_refl i) x hx a
  cases hval : get? (l.ins set) a with
  | some val =>
    have hmem : .str a ∈ place.here.head.provided := by
      refine place.here.head.mem_provided ?_
      rw [hprepared, Entries.keys, ← has_iff_mem, has, hval]
      rfl
    obtain ⟨val', v, henc, hv, hgives⟩ :=
      place.here.head.gives hat.ordinary hname (h.own_keys place.here.progress)
      (hnamed ▸ hval) hmem (place.here.head.named_rest.1 ▸ hbrought) fun hraw =>
      hclear.ins_inline hraw hval
    obtain ⟨concl⟩ := run.concluded
    obtain ⟨hlast, hlast'⟩ := place.here.head.last_rest
    have hsource : r.tree.sourceAt i a = some (place.here.head.site.inName a) := by
      have hbinding : get? (bindings (place.here.head.bound.step i)) a =
          some (source (place.here.head.site.inName a)) :=
        hgives.binding
      rw [sourceAt, run.bindingAt_eq place.lt_length, place.later.steps i (Nat.le_refl i),
        place.here.head.last_bindings,
        hbinding]
      rfl
    rw [hsource, bind_some,
      h.follow_inName place.here (place.later.inputs _ (hlast' ▸ hgives.declared))]
    refine .value hval henc hv ?_ fun x hx htext => ?_
    · rw [concl.given]
      exact place.later.given _ (hlast ▸ hgives.held)
    · have hx := hat.given_at hx htext
      rw [← (place.here.head.bound_adds hname).1] at hx
      exact hgives.value x hx htext
  | none =>
    have hprov : .str a ∉ place.here.head.provided := by
      intro hmem
      obtain ⟨val, hsome⟩ := place.here.head.binding_of_provided hmem
      rw [hnamed, hval] at hsome
      cases hsome
    have htaken : ∀ x ∈ place.here.head.taken.given, x.1.text ≠ place.here.head.site.inName a := by
      intro x hx htext
      rcases place.here.head.taken_adds.1 x hx with hx | ⟨b, hb, hkey⟩
      · exact hbrought x hx htext
      · rw [hkey] at htext
        cases Site.inName_inj htext
        exact hprov hb
    by_cases hleft : a ∉ l.required set ∨ set.options.noInference
    · have hkept := place.here.head.binding_kept hat.ordinary hname hprov (not_has_of_text htaken)
        (hrequired ▸ hleft)
      rw [hnamed, hval] at hkept
      rw [sourceAt, run.bindingAt_eq place.lt_length, place.later.steps i (Nat.le_refl i), hkept]
      exact .idle hval hleft
    · rw [not_or, not_not, Bool.not_eq_true] at hleft
      obtain ⟨w, hw, hsought⟩ := hat.origin_open (hrequired ▸ hleft.1)
        (not_any_of_not_mem hprov) hleft.2 (not_has_of_text htaken)
        (hat.inputs_new hprov)
      rw [hcwl] at hw
      have hseeks : l.Seeks set a w := ⟨hval, hleft.1, hleft.2, hw⟩
      generalize (r.tree.sourceAt i a).bind r.tree.follow = o at hsought ⊢
      cases hsought with
      | found hx => exact .found hseeks hx
      | raised hx hw =>
        exact .raised hseeks hx hw fun x hx htext => htaken x (hat.given_at hx htext) htext

section

variable (inner : SubRun place.here.head)
  (hargs : under? (place.before.step i) "parentargs" = some (.map []))

include inner hargs

theorem inner_given (hx : x ∈ place.here.head.taken.given)
    (htext : x.1.text = place.here.head.site.inName name) :
    ∃ y ∈ inner.result.env.given, y.1.text = name ∧ y.2 = x.2 := by
  have hname := h.site_name place.here
  rcases place.here.head.taken_adds.1 x hx with hx | ⟨b, hb, -⟩
  · rw [Draft.given_of_core inner.brought] at hx
    have hstr : ∀ y ∈ inner.result.env.given.map fun e =>
        ((Doc.str (place.here.head.site.name ++ Namespaces.sep ++ e.1.text), e.2) : Doc × Doc),
          ∃ k, y.1 = .str k := by
      intro y hy
      obtain ⟨z, -, rfl⟩ := mem_map.mp hy
      exact ⟨_, rfl⟩
    rcases mem_update_of_str hstr hx with hx | hx
    · exact absurd (by rw [htext, Site.inName, hname])
        (hat.untouched.given i (Nat.le_refl i) x hx name)
    · obtain ⟨y, hy, rfl⟩ := mem_map.mp hx
      exact ⟨y, hy, Site.inName_inj htext, rfl⟩
  · rw [h.inner_provided place.here inner hargs] at hb
    cases hb

/-- What the tools of a workflow inside are fed with does not change when it is a step of a
workflow, but that tools before the step feed what was left open. -/
theorem fed_inner (hcls : under? inner.result.tree.part.cwl "class" = some (.str "Workflow"))
    (hsub : r.tree.subs[i]? = some inner.result.tree) (hpath : path ≠ [])
    (hfed : Fed set inner.result xs l a (inner.result.tree.originOf path a)) :
    Fed set r (marksBefore r lss i ++ xs.map fun x => (i :: x.1, x.2)) l a
      (r.tree.originOf (i :: path) a) := by
  have hprov : ∀ b, .str b ∉ place.here.head.provided := by
    simp [h.inner_provided place.here inner hargs]
  rw [originOf_cons hsub hpath]
  generalize ho : inner.result.tree.originOf path a = o at hfed
  cases hfed with
  | @value val val' v name hval henc hv held hgiven =>
    have hrequired : name ∈ place.here.head.required := inner.mem_required hcls (origin_input ho)
    have hframe := place.here.head.prepared_frame.trans
      (place.here.head.owned_frame.trans
        (place.here.head.named_frame.trans place.here.head.taken_frame))
    have htaken : has place.here.head.taken.given (place.here.head.site.inName name) := by
      refine hframe.given _ ?_
      rw [Draft.given_of_core inner.brought]
      exact takeUp_given held
    obtain ⟨concl⟩ := run.concluded
    change Fed set r _ l a ((r.tree.sourceAt i name).bind r.tree.follow)
    rw [hat.origin_given hrequired (not_any_of_not_mem (hprov name)) htaken]
    refine .value hval henc hv ?_ fun x hx htext => ?_
    · rw [concl.given]
      exact place.later.given _
        ((place.here.head.bound_frame.trans place.here.head.last_frame).given _ htaken)
    · obtain ⟨y, hy, hkey, heq⟩ := hat.inner_given inner hargs (hat.given_at hx htext) htext
      rw [← heq]
      exact hgiven y hy hkey
  | found seeks hx =>
    refine .found (x := (i :: _, _)) seeks ?_
    rw [search_append, search_map, hx]
    rfl
  | @raised w name seeks hx hw hnew =>
    have hrequired : name ∈ place.here.head.required := inner.mem_required hcls (origin_input ho)
    have htaken : ∀ x ∈ place.here.head.taken.given, x.1.text ≠
        place.here.head.site.inName name := by
      intro x hx htext
      obtain ⟨y, hy, hkey, -⟩ := hat.inner_given inner hargs hx htext
      exact hnew y hy hkey
    obtain ⟨w', hw', hsought⟩ := hat.origin_open hrequired (not_any_of_not_mem (hprov name))
      seeks.infer (not_has_of_text htaken) (hat.inputs_new (hprov name))
    rw [inner.tool, hw] at hw'
    cases hw'
    have hsearch : search set w (marksBefore r lss i ++ xs.map fun x => (i :: x.1, x.2)) =
        search set w (marksBefore r lss i) := by
      rw [search_append, search_map, hx]
      rfl
    change Fed set r _ l a ((r.tree.sourceAt i name).bind r.tree.follow)
    generalize (r.tree.sourceAt i name).bind r.tree.follow = o at hsought ⊢
    cases hsought with
    | found hx => exact .found seeks (hsearch.trans hx)
    | raised hx hw =>
      exact .raised seeks (hsearch.trans hx) hw fun x hx htext =>
        htaken x (hat.given_at hx htext) htext
  | idle hval hleft => exact .idle hval hleft

end

end

end ListedAt

end Once

theorem getElem?_flatten {xss : List (List α)} {k : Nat} {x : α} (h : xss.flatten[k]? = some x) :
    ∃ i xs m, xss[i]? = some xs ∧ xs[m]? = some x ∧ xss.flatten.take k = (xss.take i).flatten ++
      xs.take m := by
  induction xss generalizing k with
  | nil => cases h
  | cons ys xss ih =>
    rw [flatten_cons] at h
    by_cases hk : k < ys.length
    · rw [getElem?_append_left hk] at h
      exact ⟨0, ys, k, rfl, h, by simp [take_append_of_le_length (Nat.le_of_lt hk)]⟩
    · rw [getElem?_append_right (by omega)] at h
      obtain ⟨i, xs, m, hi, hm, htake⟩ := ih h
      refine ⟨i + 1, xs, m, hi, hm, ?_⟩
      rw [flatten_cons, take_append, htake, take_of_length_le (by omega), take_succ_cons,
        flatten_cons, append_assoc]

section Nested

variable {set : Setting} {n : Nat} {t : Task} {r : Compiled} {ls : List Leaf} {steps : List Doc}
  {lss : List (List Leaf)}

/-- Each tool of a compiled workflow is fed as one search says that goes backwards over the tools
before it, whatever the workflows are inside of which it lies. -/
theorem Faithful.fed (h : Faithful set n t r) (hcalls : ∀ k, Keyed.has t.edgeCalls k → isPathName k)
    (hl : Lists set t.path t.yml ls) (hclear : ∀ l ∈ ls, l.Clear set)
    (htools : ∀ e ∈ set.tools, ∀ a ∈ namesIn e.2.cwl "inputs", isPathName a = false)
    (hnames : set.options.namingConventions = false) {k : Nat} {x : List Nat × Leaf}
    (hx : (r.tree.leaves.zip ls)[k]? = some x) (a : String) :
    Fed set r ((r.tree.leaves.zip ls).take k) x.2 a (r.tree.originOf x.1 a) := by
  induction h using Faithful.induction generalizing ls k x with
  | @step n _ r h run ih =>
    obtain ⟨steps, lss, rfl, hlisted⟩ := hl.listed run
    have hparts := hlisted.parts_of h.kept fun hs hun => Faithful.brings ⟨hs, hun⟩
    have hn := hl.unambiguous hclear htools (n + 1)
    rw [hlisted.zip_leaves hparts] at hx ⊢
    obtain ⟨i, xs, m, hi, hm, htake⟩ := getElem?_flatten hx
    have hlen : i < run.start.keys.length := by
      have := (List.getElem?_eq_some_iff.mp hi).1
      rwa [length_marks (by rw [run.subs_length, hlisted.length_eq]), hlisted.length_eq] at this
    obtain ⟨place, hkeeps⟩ := run.enteredAt (fun _ _ _ here => hlisted.site_name here)
      (P := fun _ d => Ordinary d ∧ Plain d.notes) (fun j d e here hd =>
      (here.ordinaryStep hlisted.bare.plain h.kept hn Faithful.ordinary hd.1 hd.2).keeps)
      ⟨⟨hcalls, by simp [Draft.start, has]⟩, hlisted.bare.plain.start_notes run⟩ hlen
    have hat : ListedAt hlisted place := ⟨⟨_, hl⟩, h.kept, hparts, hnames,
      place.here.ordinaryStep hlisted.bare.plain h.kept hn Faithful.ordinary place.holds.1.1
      place.holds.1.2, place.holds.2, hkeeps⟩
    rw [htake]
    change Fed set r (marksBefore r lss i ++ xs.take m) x.2 a _
    rcases hlisted.at_step place.here with ⟨l, hls, htool, hkey, hstep, ⟨tool⟩⟩ |
      ⟨ls, inner, hls, -, hargs, hlists⟩
    · have hpart := place.here.subs_eq (p := .node tool.part []) (by rw [tool.brought])
      rw [marks_getElem? 0 hpart hls, Nat.zero_add] at hi
      have hleaves : leaves (.node tool.part []) = [[]] := by rw [leaves]
      rw [hleaves] at hi
      cases hi
      cases m with
      | zero =>
        cases hm
        rw [take_zero, append_nil]
        have hmem : l ∈ lss.flatten := mem_flatten.mpr ⟨_, mem_of_getElem? hls, mem_cons_self⟩
        exact hat.fed_tool htool (hclear l hmem) hkey hstep tool a
      | succ m => cases hm
    · have hpart := (place.here.inner_spec inner).2
      rw [marks_getElem? 0 hpart hls, Nat.zero_add] at hi
      cases hi
      rw [getElem?_map, map_eq_some_iff] at hm
      obtain ⟨y, hy, rfl⟩ := hm
      have hinner := place.here.inner_faithful h.kept inner
      have hmem : ∀ l ∈ ls, l ∈ lss.flatten :=
        fun l hl => mem_flatten.mpr ⟨_, mem_of_getElem? hls, hl⟩
      have hfed := ih hinner place.holds.1.1.calls hlists (fun l hl => hclear l (hmem l hl)) hy
      have hne : y.1 ≠ [] := ne_nil_of_mem_leaves hinner.subs_ne (of_mem_zip (mem_of_getElem? hy)).1
      rw [← map_take]
      exact hat.fed_inner inner hargs hinner.cls hpart hne hfed

end Nested

def Compiled.feedFrom (r : Compiled) : Option Origin → Feed Nat
  | some (.output path out) => .output (r.tree.leaves.idxOf path) out
  | some (.input name) => ((get? r.env.given name).bind (under? · "value")).elim .unbound .value
  | none => .unbound

/-- What an input of a tool is fed with in a compiled workflow, the tools numbered in the order in
which they stand. -/
def Compiled.feed (r : Compiled) (k : Nat) (a : String) : Feed Nat :=
  r.feedFrom ((r.tree.leaves[k]?).bind (r.tree.originOf · a))

def flatFeed (set : Setting) (ls : List Leaf) (k : Nat) (a : String) : Feed Nat :=
  (ls[k]?).elim .unbound fun l => l.feedAmong set (((range ls.length).zip ls).take k) a

theorem Fed.feedFrom_eq {set : Setting} {r : Compiled} {l : Leaf} {a : String} {o : Option Origin}
    (h : Fed set r xs l a o) :
    r.feedFrom o = (l.feedAmong set xs a).map (r.tree.leaves.idxOf ·) := by
  cases h with
  | value hval henc hv held hgiven =>
    obtain ⟨x, hx⟩ := isSome_iff_exists.mp held
    have hvalue := hgiven _ (mem_of_get? hx) rfl
    simp only [Compiled.feedFrom, Leaf.feedAmong, hval, henc, hx, Except.toOption, bind_some, hv,
      hvalue, elim_some, Feed.map]
  | found seeks hx =>
    simp [Compiled.feedFrom, Leaf.feedAmong, seeks.stated, seeks.required, seeks.infer,
      seeks.wanted, Except.toOption, hx, Feed.map]
  | @raised w name seeks hx hw hnew =>
    have hnone : get? r.env.given name = none := by
      simpa [has] using not_has_of_text hnew
    simp [Compiled.feedFrom, Leaf.feedAmong, seeks.stated, seeks.required, seeks.infer,
      seeks.wanted, Except.toOption, hx, hnone, Feed.map]
  | idle hval hleft =>
    have hno : ¬(a ∈ l.required set ∧ set.options.noInference = false) := by
      rintro ⟨hreq, hinfer⟩
      rcases hleft with hleft | hleft
      · exact hleft hreq
      · rw [hleft] at hinfer
        cases hinfer
    simp only [Compiled.feedFrom, Leaf.feedAmong, hval, if_neg hno, Feed.map]

theorem map_idxOf_zip {β : Type} [BEq α] [LawfulBEq α] {as : List α} {bs : List β}
    (hlen : as.length = bs.length) (hnodup : as.Nodup) :
    ((as.zip bs).map fun x => (as.idxOf x.1, x.2)) = (range bs.length).zip bs := by
  have hnumbers : as.map (as.idxOf ·) = range as.length := by
    refine ext_getElem (by simp) fun i hi hi' => ?_
    rw [getElem_map, getElem_range, hnodup.idxOf_getElem]
  rw [← hlen, ← hnumbers, zip_map_left]
  rfl

section Nested

variable {set : Setting} {n : Nat} {t : Task} {r : Compiled} {ls : List Leaf}

theorem Faithful.feed (h : Faithful set n t r)
    (hcalls : ∀ k, Keyed.has t.edgeCalls k → isPathName k) (hl : Lists set t.path t.yml ls)
    (hclear : ∀ l ∈ ls, l.Clear set)
    (htools : ∀ e ∈ set.tools, ∀ a ∈ namesIn e.2.cwl "inputs", isPathName a = false)
    (hnames : set.options.namingConventions = false) (k : Nat) (a : String) :
    r.feed k a = flatFeed set ls k a := by
  obtain ⟨outs, hbrings⟩ := h.brings hl
  have hlen := hbrings.length
  cases hk : ls[k]? with
  | none =>
    have hnone : r.tree.leaves[k]? = none := by
      rw [getElem?_eq_none_iff] at hk ⊢
      omega
    rw [Compiled.feed, hnone, flatFeed, hk]
    rfl
  | some l =>
    obtain ⟨p, hp⟩ : ∃ p, r.tree.leaves[k]? = some p :=
      ⟨_, getElem?_eq_getElem (hlen ▸ (List.getElem?_eq_some_iff.mp hk).1)⟩
    have hx : (r.tree.leaves.zip ls)[k]? = some (p, l) := getElem?_zip_eq_some.mpr ⟨hp, hk⟩
    have hfed := (h.fed hcalls hl hclear htools hnames hx a).feedFrom_eq
    rw [Compiled.feed, hp, flatFeed, hk, bind_some,
      elim_some, ← map_idxOf_zip hlen (leaves_nodup _), ← map_take]
    exact hfed.trans (Leaf.feedAmong_map (r.tree.leaves.idxOf ·) _ a).symm

end Nested

end WorkflowInference.Compile
