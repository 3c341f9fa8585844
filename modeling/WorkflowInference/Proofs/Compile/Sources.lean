import Mathlib.Data.List.TakeWhile
import WorkflowInference.Proofs.Compile.Ordinary

/-!
What a search for an output visits, and where the inputs of a step come from when there are no
explicit edges: from an input of the workflow, or from an output of an earlier step. The steps
before a place are searched from the latest backwards, and the outputs of each from the last one
backwards; a rule that ends the search lets it finish the inner step it was met in.
-/
namespace WorkflowInference.Compile

open Result List Option
open Workflow (placeKey)

section Visit

variable {α : Type} (inner : α → String) (breaks : α → Bool)

/-- What is visited of some outputs: all of them, or those up to the end of the inner step in which
the first one stands that ends the search. -/
def visited (outs : List α) : List α :=
  match outs.dropWhile (!breaks ·) with
  | [] => outs
  | out :: rest => outs.takeWhile (!breaks ·) ++ out :: rest.takeWhile (inner · == inner out)

def visitedFrom : Option String → List α → List α
  | none, outs => visited inner breaks outs
  | some name, outs => outs.takeWhile (inner · == name)

variable {outs : List α}

theorem visitedFrom_nil (stop : Option String) : visitedFrom inner breaks stop [] = [] := by
  cases stop <;> rfl

theorem visitedFrom_cons (stop : Option String) (out : α) (outs : List α) :
    visitedFrom inner breaks stop (out :: outs) =
      if stop.any (· != inner out) then []
      else out :: visitedFrom inner breaks (if breaks out then some (inner out)
        else stop) outs := by
  cases stop with
  | none =>
    cases hbreaks : breaks out with
    | true => simp [visitedFrom, visited, hbreaks]
    | false =>
      simp only [visitedFrom, visited, dropWhile_cons, takeWhile_cons, hbreaks,
        Bool.not_false, if_true]
      cases hdrop : outs.dropWhile (!breaks ·) <;> simp [hdrop]
  | some name =>
    by_cases hname : inner out = name
    · subst hname
      simp [visitedFrom]
    · simp [visitedFrom, hname, Ne.symm hname]

theorem mem_of_visited (h : out ∈ visited inner breaks outs) : out ∈ outs := by
  unfold visited at h
  split at h
  · exact h
  · rename_i x rest hdrop
    rw [← takeWhile_append_dropWhile (p := (!breaks ·)) (l := outs), hdrop]
    rw [mem_append, mem_cons] at h ⊢
    exact h.imp_right (Or.imp_right fun h => takeWhile_prefix _ |>.subset h)

theorem visited_eq_self (h : ∀ out ∈ outs, breaks out = false) :
    visited inner breaks outs = outs := by
  have hdrop : outs.dropWhile (!breaks ·) = [] := dropWhile_eq_nil_iff.mpr fun out hout => by
    simp [h out hout]
  rw [visited, hdrop]

end Visit

def offeredType (scattered : Bool) (param : Doc) : Result Doc := do
  let sig ← Param.signature param false
  return promote scattered (← sig.field "type")

def Wanted.admits (w : Wanted) (scattered : Bool) (param : Doc) : Bool :=
  (do w.fits (← offeredType scattered param) (← param.fieldD "format" (.str "")) :
    Result Bool).toOption.getD false

variable {w : Wanted} {scattered : Bool}

theorem Wanted.of_admits (h : w.admits scattered param) :
    ∃ type, offeredType scattered param = .ok type ∧
      w.fits type ((under? param "format").getD (.str "")) = .ok true := by
  unfold Wanted.admits at h
  cases hr : (do
    w.fits (← offeredType scattered param) (← param.fieldD "format" (.str "")) : Result Bool) with
  | error e =>
    rw [hr] at h
    cases h
  | ok b =>
    rw [hr] at h
    obtain rfl : b := h
    obtain ⟨type, htype, format, hformat, hr⟩ := of_bind₂ hr
    exact ⟨type, htype, fieldD_eq_ok hformat ▸ hr⟩

def innerOf (out : Doc × Doc) : String := innerStep out.1.text

def breaksBy (rules : Entries) (out : Doc × Doc) : Bool :=
  Entries.getD rules out.1.text (.str "default") == .str "break"

theorem scanOutputs_visits (h : scanOutputs w scattered rules outs s = .ok s') :
    s'.fitting.map (·.1) = s.fitting.map (·.1) ++
        ((visitedFrom innerOf (breaksBy rules) s.stop outs).filter fun out =>
          w.admits scattered out.2).map (·.1.text) ∧
      s'.stop.isSome =
      (s.stop.isSome || (visitedFrom innerOf (breaksBy rules) s.stop outs).any (breaksBy rules)) ∧
      ∀ out ∈ visitedFrom innerOf (breaksBy rules) s.stop outs, out.1 = .str out.1.text := by
  induction outs generalizing s with
  | nil =>
    cases h
    simp [visitedFrom_nil]
  | cons out outs ih =>
    obtain ⟨k, param⟩ := out
    obtain ⟨key, hkey, h⟩ := of_bind h
    have hk : k = .str key := by
      rw [elim_eq_ok] at hkey
      cases k with
      | str s => exact congrArg Doc.str (some.inj hkey)
      | _ => cases hkey
    subst hk
    rw [visitedFrom_cons]
    change (if s.stop.any (· != innerOf (.str key, param)) then _ else _) = _ at h
    by_cases hstop : s.stop.any (· != innerOf (.str key, param))
    · rw [if_pos hstop] at h ⊢
      rw [← pure_eq_ok.mp h]
      simp [isSome_of_any hstop]
    · rw [if_neg hstop] at h ⊢
      obtain ⟨sig, hsig, type, htype, h⟩ := of_bind₂ h
      obtain ⟨format, hformat, fits, hfits, h⟩ := of_bind₂ h
      have hadmits : w.admits scattered param = fits := by
        have hoffered : offeredType scattered param = .ok (promote scattered type) :=
          bind_eq_ok.mpr ⟨sig, hsig, bind_eq_ok.mpr ⟨type, htype, rfl⟩⟩
        rw [Wanted.admits, bind_eq_ok.mpr ⟨_, hoffered, bind_eq_ok.mpr ⟨format, hformat, hfits⟩⟩]
        rfl
      obtain ⟨hfitting, hstopped, hkeys⟩ := ih h
      change _ = map _ _ ++ map _ (filter _ (visitedFrom innerOf (breaksBy rules)
        (if breaksBy rules (.str key, param) then some (innerOf (.str key, param)) else s.stop)
        outs)) at hfitting
      change _ = (isSome
          (if breaksBy rules (.str key, param) then some (innerOf (.str key, param)) else s.stop) ||
        any (visitedFrom innerOf (breaksBy rules)
          (if breaksBy rules (.str key, param) then some (innerOf (.str key, param)) else s.stop)
          outs) _) at hstopped
      rw [hfitting, hstopped, filter_cons, hadmits, any_cons]
      refine ⟨?_, ?_, forall_mem_cons.mpr ⟨rfl, hkeys⟩⟩
      · cases fits <;> simp [Doc.text]
      · cases breaksBy rules (.str key, param) <;> simp

section Search

variable (c : Scope) (d : Draft) (w : Wanted)

def outputsAt (j : Nat) : Entries :=
  ((d.tools[j]?).bind fun tool => (under? tool.cwl "outputs").bind Doc.map?).getD []

def rulesAt (j : Nat) : Entries :=
  let key := c.keys.getD j ""
  ((do rulesOf (← d.notes.fieldD (placeKey j key) (.map [])) (Path.stem key) :
    Result Doc).toOption.bind Doc.map?).getD []

def visitedAt (j : Nat) : Entries :=
  visited innerOf (breaksBy (rulesAt c d j)) (outputsAt d j).reverse

def scatteredAt (j : Nat) : Bool := ((d.step j).holds "scatter").toOption.getD false

/-- The most recent output that can be taken, from the steps before a place: of the latest step that
has one, the first one visited. A step in which a rule ends the search is the last one that is
asked. -/
def mostRecent : Nat → Option (Nat × String)
  | 0 => none
  | j + 1 =>
    match (visitedAt c d j).find? fun out =>
      w.admits (scatteredAt d j) out.2 && !isLog out.1.text with
    | some out => some (j, out.1.text)
    | none => if (visitedAt c d j).any (breaksBy (rulesAt c d j)) then none else mostRecent j

variable {c d w} {arg : String}

theorem rulesAt_eq {j : Nat} {note : Doc} {rules : Entries}
    (hnote : d.notes.fieldD (placeKey j (c.keys.getD j "")) (.map []) = .ok note)
    (hrules : rulesOf note (Path.stem (c.keys.getD j "")) = .ok (.map rules)) :
    rulesAt c d j = rules := by
  unfold rulesAt
  dsimp only
  rw [hnote]
  change ((rulesOf note (Path.stem (c.keys.getD j ""))).toOption.bind Doc.map?).getD [] = rules
  rw [hrules]
  rfl

theorem choose_unnamed {set : Setting} (hnames : set.options.namingConventions = false)
    (fitting : List Candidate) :
    choose set arg (fitting.filter fun x => !isLog x.1) = (fitting.map (·.1)).find? (!isLog ·) := by
  rw [find?_map, ← head?_filter]
  change choose set arg (fitting.filter fun x => !isLog x.1) =
    ((fitting.filter fun x => !isLog x.1).head?).map _
  cases fitting.filter fun x => !isLog x.1 with
  | nil => rfl
  | cons x xs => simp [choose, hnames]

structure Visits (c : Scope) (d : Draft) (w : Wanted) (j : Nat) (scan : Scan) : Prop where
  tool : ∃ tool, d.tools[j]? = some tool ∧ under? tool.cwl "outputs" = some (.map (outputsAt d j))
  scattered : (d.step j).holds "scatter" = .ok (scatteredAt d j)
  fitting : scan.fitting.map (·.1) = ((visitedAt c d j).filter fun out =>
    w.admits (scatteredAt d j) out.2).map (·.1.text)
  stop : scan.stop.isSome = (visitedAt c d j).any (breaksBy (rulesAt c d j))
  keys : ∀ out ∈ visitedAt c d j, out.1 = .str out.1.text

theorem scanStep_visits {j : Nat} {scan : Scan} (h : scanStep c d w j = .ok scan) :
    Visits c d w j scan := by
  obtain ⟨note, hnote, tool, htool, outs, houts, h⟩ := of_bind₃ h
  obtain ⟨rules, hrules, rules', hrules', scattered, hscatter, h⟩ := of_bind₃ h
  obtain ⟨doc, hdoc, houts⟩ := of_bind houts
  rw [elim_eq_ok] at htool
  rw [field_eq_ok] at hdoc
  rw [entries_eq_ok] at houts
  have hall : outputsAt d j = outs := by
    rw [outputsAt, htool, bind_some, hdoc, houts]
    rfl
  have hscattered : scatteredAt d j = scattered := by rw [scatteredAt, hscatter]; rfl
  rw [houts, ← hall] at hdoc
  rw [← hscattered] at h hscatter
  cases outs with
  | nil =>
    cases h
    refine ⟨⟨tool, htool, hdoc⟩, hscatter, ?_, ?_, ?_⟩ <;> simp [visitedAt, hall, visited]
  | cons out outs =>
    rw [if_neg (by simp), entries_eq_ok] at hrules'
    rw [hrules'] at hrules
    rw [← hall, ← rulesAt_eq hnote hrules] at h
    obtain ⟨hfitting, hstop, hkeys⟩ := scanOutputs_visits h
    exact ⟨⟨tool, htool, hdoc⟩, hscatter, hfitting, hstop, hkeys⟩

/-- Without naming conventions a search finds the most recent output. -/
theorem searchSteps_mostRecent (hnames : c.setting.options.namingConventions = false)
    (h : searchSteps c d w arg n = .ok r) : r.1 = mostRecent c d w n := by
  induction n generalizing r with
  | zero =>
    cases h
    rfl
  | succ j ih =>
    obtain ⟨scan, hscan, h⟩ := of_bind h
    obtain ⟨-, -, hfitting, hstop, -⟩ := scanStep_visits hscan
    have hchoice : choose c.setting arg (scan.fitting.filter fun x => !isLog x.1) =
      ((visitedAt c d j).find? fun out =>
        w.admits (scatteredAt d j) out.2 && !isLog out.1.text).map (·.1.text) := by
      rw [choose_unnamed hnames, hfitting, find?_map, find?_filter]
      simp
    rw [hchoice, hstop] at h
    rw [mostRecent]
    cases hfound : (visitedAt c d j).find? fun out =>
      w.admits (scatteredAt d j) out.2 && !isLog out.1.text with
    | some out =>
      rw [hfound] at h
      rw [← pure_eq_ok.mp h]
    | none =>
      rw [hfound] at h
      change (if _ then _ else _) = _ at h
      split at h
      · rename_i hbreak
        rw [← pure_eq_ok.mp h, if_pos hbreak]
      · rename_i hbreak
        obtain ⟨rest, hrest, rfl⟩ := of_map h
        rw [if_neg hbreak]
        exact (ih hrest :)

end Search

open Entries Draft
open Yaml (aliasKey)

def outputTexts (cwl : Doc) : List String :=
  (((under? cwl "outputs").bind Doc.map?).getD []).map (·.1.text)

theorem outputTexts_eq (h : under? cwl "outputs" = some (.map outs)) :
    outputTexts cwl = outs.map (·.1.text) := by
  rw [outputTexts, h, Option.bind_some, Doc.map?, Option.getD_some]

inductive OutputAt (d : Draft) (j : Nat) : String → Doc → Option Doc → Prop
  | intro {tool : Tool} {outs : Entries} {out : String} {param type : Doc} {scattered : Bool}
      (htool : d.tools[j]? = some tool) (houts : under? tool.cwl "outputs" = some (.map outs))
      (hmem : (.str out, param) ∈ outs) (hscatter : (d.step j).holds "scatter" = .ok scattered)
      (htype : offeredType scattered param = .ok type) :
      OutputAt d j out type (under? param "format")

theorem OutputAt.mem_outputTexts {d : Draft} {j : Nat} {out : String} {type : Doc}
    {format : Option Doc} (h : OutputAt d j out type format) :
    ∃ tool, d.tools[j]? = some tool ∧ out ∈ outputTexts tool.cwl := by
  obtain ⟨htool, houts, hmem, -, -⟩ := h
  refine ⟨_, htool, ?_⟩
  rw [outputTexts_eq houts]
  exact mem_map.mpr ⟨_, hmem, rfl⟩

def Fitting (d : Draft) (w : Wanted) (j : Nat) (out : String) : Prop :=
  ∃ type format, OutputAt d j out type format ∧ w.fits type (format.getD (.str "")) = .ok true

section Search

variable {c : Scope} {d : Draft} {w : Wanted} {arg out : String}

theorem choose_mem {set : Setting} {fitting : List Candidate}
    (h : choose set arg fitting = some out) : ∃ x ∈ fitting, x.1 = out := by
  unfold choose at h
  split at h
  · cases h
  · split at h
    · dsimp only at h
      split at h
      · rename_i x hfind
        cases h
        exact ⟨x, mem_of_find?_eq_some hfind, rfl⟩
      · cases h
        exact ⟨_, mem_cons_self, rfl⟩
    · cases h
      exact ⟨_, mem_cons_self, rfl⟩

theorem scanStep_fitting (h : scanStep c d w j = .ok scan) :
    ∀ x ∈ scan.fitting, Fitting d w j x.1 := by
  have hvisits := scanStep_visits h
  intro x hx
  have hmem : x.1 ∈ scan.fitting.map (·.1) := mem_map_of_mem hx
  rw [hvisits.fitting] at hmem
  obtain ⟨out, hout, hkey⟩ := mem_map.mp hmem
  obtain ⟨hout, hadmits⟩ := mem_filter.mp hout
  obtain ⟨tool, htool, houts⟩ := hvisits.tool
  obtain ⟨type, htype, hfits⟩ := Wanted.of_admits hadmits
  have hdecl : (.str out.1.text, out.2) ∈ outputsAt d j := by
    rw [← hvisits.keys out hout]
    exact mem_reverse.mp (mem_of_visited _ _ hout)
  rw [← hkey]
  exact ⟨type, _, .intro htool houts hdecl hvisits.scattered htype, hfits⟩

theorem searchSteps_found {n j : Nat} {r : Option (Nat × String) × List (List Candidate)}
    (h : searchSteps c d w arg n = .ok r) (hr : r.1 = some (j, out)) :
    j < n ∧ Fitting d w j out := by
  induction n generalizing r with
  | zero =>
    cases h
    cases hr
  | succ n ih =>
    obtain ⟨scan, hscan, h⟩ := of_bind h
    split at h
    · rename_i found hfound
      rw [← pure_eq_ok.mp h] at hr
      obtain ⟨rfl, rfl⟩ := Prod.mk.inj (Option.some.inj hr)
      obtain ⟨x, hx, rfl⟩ := choose_mem hfound
      exact ⟨Nat.lt_succ_self n, scanStep_fitting hscan x (mem_filter.mp hx).1⟩
    · split at h
      · rw [← pure_eq_ok.mp h] at hr
        cases hr
      · obtain ⟨rest, hrest, rfl⟩ := of_map h
        obtain ⟨hlt, hfit⟩ := ih hrest hr
        exact ⟨Nat.lt_succ_of_lt hlt, hfit⟩

end Search

def sourceOf (v : Doc) : Doc := (under? v "source").getD v

@[simp] theorem sourceOf_source (name : String) : sourceOf (source name) = .str name := rfl

@[simp] theorem source_alias (name : String) : under? (source name) Yaml.aliasKey = none := rfl

@[simp] theorem source_inline (name : String) : under? (source name) Yaml.inlineKey = none := rfl

theorem sourceOf_of_hashable (h : v.hashable) : sourceOf v = v := by
  cases v <;> simp_all [sourceOf, under?, Doc.map?, Doc.hashable]

/-- What an input of a step may take: an input that the workflow declares or that was brought up,
or an output of an earlier step. -/
inductive Sourced (c : Scope) (i : Nat) (d : Draft) : Doc → Prop
  | own {x : Doc} (h : d.ownInputs.includes x = .ok true) : Sourced c i d x
  | input {k : String} (h : has d.inputs k) : Sourced c i d (.str k)
  | output {m : Nat} {tool : Tool} {o : String} (hm : m < i) (htool : d.tools[m]? = some tool)
      (ho : o ∈ outputTexts tool.cwl) :
      Sourced c i d (.str (stepName c.stem m (c.keys.getD m "") ++ "/" ++ o))

theorem Sourced.mono (h : Sourced c i d x) (hframe : Frame j d e) : Sourced c i e x := by
  cases h with
  | own h => exact .own ((hframe.own.includes x).trans h)
  | input h => exact .input (hframe.inputs _ h)
  | @output m tool o hm htool ho =>
    obtain ⟨rest, hrest⟩ := hframe.tools
    refine .output hm ?_ ho
    rw [← hrest, List.getElem?_append_left (List.getElem?_eq_some_iff.mp htool).1, htool]

section Inputs

variable {c : Scope} {s : Site} {provided : List Doc} {referred : List String} {d e : Draft}
  {arg : String} {val : Doc}

theorem Taken.sourced (h : Taken c s d arg val e) (halias : under? val aliasKey = none)
    (hraw : c.setting.options.allowRaw = false) :
    ∃ v, e.steps = (d.bind s.index arg v).steps ∧ Sourced c s.index e (sourceOf v) := by
  have hframe := h.frame
  cases h with
  | auxiliary haux htype =>
    refine ⟨_, rfl, .input ?_⟩
    simp [Draft.bind, setStep, declare, give, has_put]
  | unresolved _ htarget => simp [halias] at htarget
  | deferred _ htarget => simp [halias] at htarget
  | resolved _ htarget => simp [halias] at htarget
  | value haux _ hval hsig =>
    refine ⟨_, rfl, .input ?_⟩
    simp [Draft.bind, setStep, declare, give, has_put]
  | raw _ _ _ hknown =>
    rcases hknown with h | hknown
    · rw [hraw] at h
      cases h
    · unfold namesInput at hknown
      split at hknown
      · rename_i hhash
        rw [← sourceOf_of_hashable hhash] at hknown
        exact ⟨val, rfl, .own ((hframe.own.includes _).trans hknown)⟩
      · cases hknown

theorem Supplied.sourced (h : Supplied c s provided referred d arg e)
    (harg : Settled c s provided d arg) (hd : Ordinary d)
    (hinfer : c.setting.options.noInference = false) :
    (provided.any (· == .str arg) ∧ e = d) ∨
      ∃ v, e.steps = (d.bind s.index arg v).steps ∧ Sourced c s.index e (sourceOf v) := by
  cases h with
  | provided h => exact .inl ⟨h, rfl⟩
  | left _ h =>
    rw [hinfer] at h
    cases h
  | given =>
    refine .inr ⟨_, rfl, .input ?_⟩
    simp [Draft.bind, setStep, declare, has_put]
  | passedOn hprov hgiven _ hcall => simp [harg.not_called hd.calls hprov hgiven] at hcall
  | resolved hprov hgiven _ hcall => simp [harg.not_called hd.calls hprov hgiven] at hcall
  | inferred _ _ _ hfound =>
    obtain ⟨hlt, _, _, hoffered, -⟩ := searchSteps_found hfound rfl
    obtain ⟨tool, htool, hout⟩ := hoffered.mem_outputTexts
    exact .inr ⟨_, rfl, .output hlt htool hout⟩
  | raised =>
    refine .inr ⟨_, rfl, .input ?_⟩
    simp [Draft.bind, setStep, declare, has_put]

end Inputs

def Wired (c : Scope) (i : Nat) (d : Draft) (k : Doc) : Prop :=
  ∃ arg v, k = .str arg ∧ get? (bindings (d.step i)) arg = some v ∧ Sourced c i d (sourceOf v)

variable {c : Scope} {i : Nat} {d e : Draft} {arg : String} {v : Doc}

theorem Wired.mono (h : Wired c i d k) (hframe : Frame j d e)
    (hstep : bindings (e.step i) = bindings (d.step i)) : Wired c i e k := by
  obtain ⟨arg, v, hk, hv, hsrc⟩ := h
  exact ⟨arg, v, hk, hstep ▸ hv, hsrc.mono hframe⟩

theorem wired_bind (hframe : Frame i d e) (hin : d.HasIn i)
    (hsteps : e.steps = (d.bind i arg v).steps) (hsrc : Sourced c i e (sourceOf v)) :
    Wired c i e (.str arg) ∧ ∀ k, Wired c i d k → Wired c i e k := by
  have hbindings := bindings_of_bind hin hsteps
  have hself : Wired c i e (.str arg) := ⟨arg, v, rfl, by rw [hbindings, get?_put_self], hsrc⟩
  refine ⟨hself, ?_⟩
  rintro k ⟨a, w, rfl, hw, hold⟩
  by_cases ha : arg = a
  · rw [← ha]
    exact hself
  · exact ⟨a, w, rfl, by rw [hbindings, get?_put_ne ha, hw], hold.mono hframe⟩

def BindsOnly (ks : List Doc) (i : Nat) (d : Draft) : Prop :=
  ∀ k ∈ keys (bindings (d.step i)), k ∈ ks

theorem BindsOnly.rebinds (h : BindsOnly ks i d) (hin : d.HasIn i) (hre : d.Rebinds i arg e)
    (harg : .str arg ∈ ks) : BindsOnly ks i e := by
  intro k hk
  rcases hre with hsteps | ⟨v, hsteps⟩
  · exact h k (step_congr hsteps i ▸ hk)
  rw [bindings_of_bind hin hsteps, ← write_str] at hk
  rcases keys_write (bindings (d.step i)) (.str arg) v with hkeys | hkeys <;> rw [hkeys] at hk
  · exact h k hk
  · rcases mem_append.mp hk with hk | hk
    · exact h k hk
    · rw [mem_singleton.mp hk]
      exact harg

namespace StepRun

theorem bindsOnly (run : StepRun sub c i key d d') :
    BindsOnly (run.provided ++ run.required.map .str) i d' := by
  have hreq : ∀ a ∈ run.required, Doc.str a ∈ run.provided ++ run.required.map .str := fun a ha =>
    mem_append_right _ (mem_map_of_mem ha)
  have howned : BindsOnly (run.provided ++ run.required.map .str) i run.owned :=
    run.owned_keeps (fun arg harg x hin _ hx => hx.rebinds hin (.inr ⟨_, rfl⟩) (hreq arg harg))
      fun k hk => mem_append_left _ (run.mem_provided hk)
  rw [BindsOnly, ← run.named_bindings] at howned
  have htaken : BindsOnly (run.provided ++ run.required.map .str) i run.taken := by
    refine run.taken_chain.keeps ?_ howned
    rintro k hk d e hd ⟨hin, arg, val, val', f, rfl, -, -, hf, hcore, -⟩
    exact hd.rebinds hin (hf.rebinds hcore) (mem_append_left _ hk)
  rw [BindsOnly, run.last_bindings]
  refine run.bound_chain.keeps ?_ htaken
  rintro arg harg d e hd ⟨hin, f, hf, hcore, -⟩
  exact hd.rebinds hin (hf.rebinds hcore) (hreq arg harg)

end StepRun

namespace OrdinaryStep

variable {run : StepRun sub c i key d d'}

theorem taken_wired (h : OrdinaryStep run) (hraw : c.setting.options.allowRaw = false) :
    ∀ k ∈ run.provided, Wired c i run.taken k := by
  have hchain :=
    run.taken_chain.with_inv (P := Open i) (fun _ _ _ _ hd ht => hd.takes ht) h.named_open
  intro k hk
  refine hchain.covers (W := Wired c i) ?_ k (.inr hk)
  rintro k d e ⟨-, hd, ht⟩
  obtain ⟨-, arg, val, val', f, rfl, hval, henc, hf, hcore, -⟩ := id ht
  have hplain := encoded_plain (hd.values arg val hval) henc
  obtain ⟨v, hv, hsrc⟩ := hf.sourced hplain.under?_alias hraw
  exact wired_bind ht.frame hd.bound ((steps_of_core hcore).trans hv)
    (hsrc.mono (Frame.of_core i hcore))

structure Supplying (run : StepRun sub c i key d d') (e : Draft) : Prop where
  bound : e.HasIn i
  ordinary : Ordinary e
  settled : ∀ a ∈ run.required, Settled c run.site run.provided e a
  wired : ∀ k ∈ run.provided, Wired c i e k

theorem Supplying.supply (h : Supplying run e)
    (harg : arg ∈ run.required) (hraw : c.setting.options.noInference = false)
    (hs : Supplies c run.site run.provided referred arg e g) :
    Supplying run g ∧ Wired c i g (.str arg) ∧ ∀ k, Wired c i e k → Wired c i g k := by
  have hframe : Frame i e g := hs.frame
  obtain ⟨-, f, hf, hcore, -⟩ := hs
  have hwired : Wired c i g (.str arg) ∧ ∀ k, Wired c i e k → Wired c i g k := by
    rcases hf.sourced (h.settled arg harg) h.ordinary hraw with ⟨hprov, rfl⟩ | ⟨v, hv, hsrc⟩
    · have hstep : bindings (g.step i) = bindings (f.step i) := by
        rw [step_congr (steps_of_core hcore)]
      obtain ⟨k, hk, heq⟩ := any_eq_true.mp hprov
      rw [Doc.beq_str_iff] at heq
      subst heq
      exact ⟨(h.wired _ hk).mono hframe hstep, fun k hk => hk.mono hframe hstep⟩
    · exact wired_bind hframe h.bound ((steps_of_core hcore).trans hv)
        (hsrc.mono (Frame.of_core i hcore))
  exact ⟨⟨(hf.rebinds hcore).keeps_in h.bound,
    (hf.ordinary (h.settled arg harg) h.ordinary).of_core hcore,
    fun a ha => (h.settled a ha).mono hframe.given, fun k hk => hwired.2 k (h.wired k hk)⟩, hwired⟩

section

variable (h : OrdinaryStep run) (hraw : c.setting.options.allowRaw = false)
  (hinfer : c.setting.options.noInference = false)

include h hraw hinfer

theorem bound_wired :
    ∀ k ∈ run.provided ++ run.required.map .str, Wired c i run.bound k := by
  have hstart : Supplying run run.taken :=
    ⟨run.taken_in, h.taken_open.ordinary, h.settled, h.taken_wired hraw⟩
  have hstep : ∀ a ∈ run.required, ∀ e g, Supplying run e →
      Supplies c run.site run.provided run.referred a e g →
      Supplying run g := fun a ha e g he hs => (he.supply ha hinfer hs).1
  intro k hk
  rcases mem_append.mp hk with hk | hk
  · exact (run.bound_chain.keeps hstep hstart).wired k hk
  · obtain ⟨a, ha, rfl⟩ := mem_map.mp hk
    refine (run.bound_chain.with_inv hstep hstart).covers (W := fun e a =>
      Wired c i e (.str a)) ?_ a (.inr ha)
    rintro a e g ⟨ha, he, hs⟩
    obtain ⟨-, hself, hrest⟩ := he.supply ha hinfer hs
    exact ⟨hself, fun b => hrest (.str b)⟩

theorem wired : ∀ k ∈ keys (bindings (d'.step i)), Wired c i d' k :=
  fun k hk =>
    (h.bound_wired hraw hinfer k (run.bindsOnly k hk)).mono run.last_frame run.last_bindings

end

end OrdinaryStep

end WorkflowInference.Compile
