import WorkflowInference.Proofs.Compile.Insertion
import WorkflowInference.Proofs.Workflow.Inlining

/-!
Annotations under inlining. A step is told by its address: the places and keys of the steps whose
workflows hold it, and its own. Inlining a workflow moves its steps one level up and the steps
behind it on. In every workflow around it the annotation of a step is afterwards what it was at the
address that the step had before; in the nearest one, the annotations of the steps that move up are
laid over what their own workflow says of them.
-/
namespace WorkflowInference

open Entries Result

namespace Workflow

open Compile (under? field_eq_ok fieldD_eq_ok entries_eq_ok)
open Doc (find? atop oneEach oneEachEntries)

abbrev Address := List (Nat × String)

variable {yml sub u v note note' : Doc} {i j n : Nat} {k key : String} {a b q : Address}
  {ks : List String}

/-! Steps and their addresses. -/

def looks (yml : Doc) : List (String × Option Doc) := ((Tree.steps yml).toOption.getD []).map look

def runAt (yml : Doc) (i : Nat) (k : String) : Option Doc :=
  (looks yml)[i]?.bind fun s => if s.1 = k ∧ isSubKey k then s.2 else none

def workflowAt : Address → Doc → Option Doc
  | [], yml => some yml
  | (i, k) :: a, yml => (runAt yml i k).bind (workflowAt a)

def hasStep : Address → Doc → Bool
  | [], _ => false
  | [(i, k)], yml => (looks yml)[i]?.any (·.1 = k)
  | (i, k) :: a, yml => (runAt yml i k).any (hasStep a)

namespace Address

def keys (a : Address) : List String := a.flatMap fun s => ["wic", "steps", placeKey s.1 s.2]

/-- The address that a step had before the workflow at another address, which has `n` steps, was
inlined. -/
def origin (n : Nat) : Address → Address → Address
  | [(i, k)], (j, key) :: b =>
    if j < i then (j, key) :: b else if j < i + n then (i, k) :: (j - i, key) :: b
      else (j + 1 - n, key) :: b
  | s :: q, s' :: b => if s' = s then s :: origin n q b else s' :: b
  | _, b => b

example : origin 2 [(0, "outer.wic"), (1, "inner.wic")] [(0, "outer.wic"), (2, "cat")] =
    [(0, "outer.wic"), (1, "inner.wic"), (1, "cat")] := by decide +kernel

theorem keys_concat (a : Address) (i : Nat) (k : String) :
    keys (a ++ [(i, k)]) = (keys a ++ ["wic", "steps"]) ++ [placeKey i k] := by
  simp [keys]

theorem keys_cons_append (i : Nat) (k : String) (a : Address) (ks : List String) :
    keys ((i, k) :: a) ++ ks = "wic" :: "steps" :: placeKey i k :: (keys a ++ ks) := by
  simp [keys]

theorem origin_here (n : Nat) (i : Nat) (k : String) (j : Nat) (key : String) (b : Address) :
    origin n [(i, k)] ((j, key) :: b) =
      if j < i then (j, key) :: b else if j < i + n then (i, k) :: (j - i, key) :: b
      else (j + 1 - n, key) :: b := by
  rw [origin]

theorem origin_cons (hq : q ≠ []) (s s' : Nat × String) (b : Address) :
    origin n (s :: q) (s' :: b) = if s' = s then s :: origin n q b else s' :: b := by
  obtain ⟨r, q, rfl⟩ := List.exists_cons_of_ne_nil hq
  rw [origin]
  simp

theorem origin_ne_nil (hb : b ≠ []) : origin n q b ≠ [] := by
  fun_cases origin n q b <;> simp_all

end Address

theorem hasStep_cons (hb : b ≠ []) (i : Nat) (k : String) (yml : Doc) :
    hasStep ((i, k) :: b) yml = (runAt yml i k).any (hasStep b) := by
  obtain ⟨s, b, rfl⟩ := List.exists_cons_of_ne_nil hb
  rw [hasStep]
  simp

theorem hasStep_singleton : hasStep [(i, k)] yml ↔ ∃ s, (looks yml)[i]? = some (k, s) := by
  rw [hasStep, Option.any_eq_true]
  constructor
  · rintro ⟨⟨key, s⟩, hs, hkey⟩
    exact ⟨s, by rw [hs, show key = k from of_decide_eq_true hkey]⟩
  · rintro ⟨s, hs⟩
    exact ⟨(k, s), hs, decide_eq_true rfl⟩

theorem hasStep_unique (h : hasStep [(i, key)] yml) (h' : hasStep [(i, k)] yml) : key = k := by
  obtain ⟨s, hs⟩ := hasStep_singleton.mp h
  obtain ⟨s', hs'⟩ := hasStep_singleton.mp h'
  exact (Prod.mk.inj (Option.some.inj (hs.symm.trans hs'))).1

theorem hasStep_lt (h : hasStep [(i, k)] yml) : i < (looks yml).length := by
  obtain ⟨s, hs⟩ := hasStep_singleton.mp h
  exact (List.getElem?_eq_some_iff.mp hs).1

theorem runAt_eq_some :
    runAt yml i k = some sub ↔ (looks yml)[i]? = some (k, some sub) ∧ isSubKey k := by
  rw [runAt, Option.bind_eq_some_iff]
  constructor
  · rintro ⟨⟨key, s⟩, hs, hif⟩
    obtain ⟨⟨rfl, hsub⟩, rfl⟩ := Option.ite_none_right_eq_some.mp hif
    exact ⟨hs, hsub⟩
  · rintro ⟨hs, hsub⟩
    exact ⟨_, hs, if_pos ⟨rfl, hsub⟩⟩

theorem hasStep_of_runAt (h : runAt yml i k = some sub) : hasStep [(i, k)] yml :=
  hasStep_singleton.mpr ⟨some sub, (runAt_eq_some.mp h).1⟩

theorem find?_keys_cons (i : Nat) (k : String) (a : Address) (ks : List String) (note : Doc) :
    find? (Address.keys ((i, k) :: a) ++ ks) note =
      (find? ["wic", "steps", placeKey i k] note).bind (find? (a.keys ++ ks)) := by
  rw [Address.keys_cons_append, ← Doc.find?_append]
  rfl

/-! Annotations that speak of steps that are there. -/

def Placed (P : Nat → String → Prop) (l : Doc) : Prop :=
  ∃ (i : Nat) (k : String), l = .str (placeKey i k) ∧ Legible k ∧ P i k

theorem Placed.imp {P Q : Nat → String → Prop} (h : Placed P l) (hPQ : ∀ i k, P i k → Q i k) :
    Placed Q l := by
  obtain ⟨i, k, hl, hk, hP⟩ := h
  exact ⟨i, k, hl, hk, hPQ i k hP⟩

theorem Placed.of_placeKey {P : Nat → String → Prop} (h : Placed P (.str (placeKey i k))) :
    P i k := by
  obtain ⟨j, key, hkey, -, hP⟩ := h
  obtain ⟨rfl, rfl⟩ := placeKey_inj (Doc.str.inj hkey)
  exact hP

def Describes (note yml : Doc) : Prop :=
  ∀ (a : Address) es, find? (a.keys ++ ["wic", "steps"]) note = some (.map es) →
    ∀ e ∈ es, Placed (fun i k => hasStep (a ++ [(i, k)]) yml) e.1

def Annotated (yml : Doc) : Prop :=
  ∀ a u, workflowAt a yml = some u → Describes u u ∧ ∀ s ∈ looks u, Legible s.1

namespace Describes

theorem hasStep (h : Describes note yml) (hb : b ≠ []) (hv : find? b.keys note = some v) :
    hasStep b yml := by
  obtain ⟨a, ⟨i, k⟩, rfl⟩ := (List.eq_nil_or_concat' b).resolve_left hb
  rw [Address.keys_concat, Doc.find?_append] at hv
  obtain ⟨d, hd, hv⟩ := Option.bind_eq_some_iff.mp hv
  rw [Doc.find?_singleton] at hv
  obtain ⟨es, rfl, hmem⟩ := Compile.mem_of_under? hv
  exact (h a es hd _ hmem).of_placeKey

theorem inner (h : Describes note yml) (hrun : runAt yml i k = some sub)
    (hv : find? ["wic", "steps", placeKey i k] note = some v) : Describes v sub := by
  intro a es hes e he
  refine (h ((i, k) :: a) es (by rw [find?_keys_cons, hv]; exact hes) e he).imp
    fun j key hstep => ?_
  rwa [List.cons_append, hasStep_cons (by simp), hrun] at hstep

end Describes

/-! Moving the annotations of one workflow. -/

namespace Notes

theorem exists_entries {P : Nat → String → Prop} (hes : ∀ e ∈ es, Placed P e.1)
    (hone : oneEachEntries es) : ∃ ns : Notes, es = ns.entries ∧ ns.Sound := by
  induction es with
  | nil => exact ⟨[], rfl, by simp, by simp⟩
  | cons e es ih =>
    obtain ⟨l, v⟩ := e
    obtain ⟨⟨i, k, rfl, hk, -⟩, hrest⟩ := List.forall_mem_cons.mp hes
    simp only [oneEachEntries, Bool.and_eq_true] at hone
    obtain ⟨ns, rfl, hns⟩ := ih hrest hone.2
    refine ⟨(i, k, v) :: ns, rfl, List.forall_mem_cons.mpr ⟨hk, hns.legible⟩,
      List.nodup_cons.mpr ⟨fun hmem => ?_, hns.apart⟩⟩
    obtain ⟨m, hm, heq⟩ := List.mem_map.mp hmem
    cases heq
    have hhas : has ns.entries (placeKey m.1 m.2.1) := has_of_mem (List.mem_map.mpr ⟨m, hm, rfl⟩)
    have hnot : has ns.entries (placeKey m.1 m.2.1) = false := by simpa [Doc.str?] using hone.1.1
    rw [hhas] at hnot
    cases hnot

variable {ns ms : Notes}

theorem mem_entries (h : m ∈ ns) : (.str (placeKey m.1 m.2.1), m.2.2) ∈ ns.entries :=
  List.mem_map.mpr ⟨m, h, rfl⟩

def behind (i n m : Nat) : Nat := if m < i then m else m + n - 1

theorem behind_inj (hm : m ≠ i) (hm' : m' ≠ i) (h : behind i n m = behind i n m') : m = m' := by
  unfold behind at h
  split_ifs at h <;> omega

theorem reindex_behind (h : ns.Sound) (hplace : ∀ m ∈ ns, m.1 ≠ i) :
    reindex ns.entries ((i : Int) + 1) ((n : Int) - 1) =
      .ok (ns.relocated (behind i n)).entries := by
  refine reindex_relocated h (fun m hm => ?_) fun m hm m' hm' =>
    behind_inj (hplace m hm) (hplace m' hm')
  have := hplace m hm
  unfold behind
  split_ifs <;> omega

theorem reindex_within (h : ns.Sound) (i : Nat) :
    reindex ns.entries 1 i = .ok (ns.relocated (· + i)).entries := by
  refine reindex_relocated (f := (· + i)) h (fun m _ => ?_) fun m _ m' _ => Nat.add_right_cancel
  rw [if_pos (by omega)]
  rfl

/-- The annotations of the steps that take the place of the one at `i`, among those of the other
steps. -/
theorem atop_relocated (hms : ∀ m ∈ ms, m.1 < n) (hns : ∀ m ∈ ns, m.1 ≠ i) (j : Nat)
    (key : String) :
    atop (get? (ms.relocated (· + i)).entries (placeKey j key))
      (get? (ns.relocated (behind i n)).entries (placeKey j key)) =
    .ok (if j < i then get? ns.entries (placeKey j key)
      else if j < i + n then get? ms.entries (placeKey (j - i : Nat) key)
      else get? ns.entries (placeKey (j + 1 - n : Nat) key)) := by
  have hout : j < i ∨ i + n ≤ j → get? (ms.relocated (· + i)).entries (placeKey j key) = none := by
    intro hj
    refine get?_entries_none fun _ hmem heq => ?_
    obtain ⟨m, hm, rfl⟩ := List.mem_map.mp hmem
    have := hms m hm
    simp only at heq
    omega
  split_ifs with hlt hwithin
  · have hbehind : behind i n j = j := if_pos hlt
    rw [hout (.inl hlt), Doc.atop_none_left, ← hbehind, get?_relocated, hbehind]
    exact fun m hm heq => behind_inj (hns m hm) (by omega) heq
  · have hnone : get? (ns.relocated (behind i n)).entries (placeKey j key) = none := by
      refine get?_entries_none fun _ hmem heq => ?_
      obtain ⟨m, hm, rfl⟩ := List.mem_map.mp hmem
      have := hns m hm
      unfold behind at heq
      grind
    have hj : j = (j - i) + i := by omega
    rw [hnone, Doc.atop_none_right]
    nth_rewrite 1 [hj]
    rw [get?_relocated (f := (· + i)) fun m _ => Nat.add_right_cancel]
  · have hbehind : behind i n (j + 1 - n) = j := by
      unfold behind
      split_ifs <;> omega
    rw [hout (.inr (by omega)), Doc.atop_none_left]
    nth_rewrite 1 [← hbehind]
    rw [get?_relocated fun m hm heq => behind_inj (hns m hm) (by omega) heq]

end Notes

variable {es ns ws : Entries}

theorem oneEach_reindex (hes : oneEachEntries es) (h : reindex es s c = .ok fs) :
    oneEachEntries fs := by
  refine (foldlM_eq_ok h).keeps (P := fun fs => oneEachEntries fs) ?_ rfl
  intro e he gs gs' hgs hstep
  split at hstep
  · obtain ⟨⟨place, name⟩, -, rfl⟩ := of_map hstep
    exact Doc.oneEach_put hgs (Doc.oneEach_of_mem hes he)
  · cases hstep

theorem get?_inlined {inner : Entries} (hns : ∀ e ∈ ns, Placed (fun j key => j = i → key = k) e.1)
    (hms : ∀ e ∈ ms, Placed (fun j _ => j < n) e.1) (hone : oneEachEntries ns)
    (hone' : oneEachEntries ms) (hinner : reindex ms 1 i = .ok inner)
    (houter : reindex (remove ns (placeKey i k)) (i + 1) (n - 1) = .ok outer)
    (hr : Doc.mergeEntries inner outer = .ok r) :
    (∀ e ∈ r, Placed (fun _ _ => True) e.1) ∧ ∀ (j : Nat) (key : String), get? r (placeKey j key) =
      if j < i then get? ns (placeKey j key)
      else if j < i + n then get? ms (placeKey (j - i : Nat) key)
      else get? ns (placeKey (j + 1 - n : Nat) key) := by
  have hremoved : ∀ e ∈ remove ns (placeKey i k), Placed (fun j key => j = i → key = k) e.1 :=
    fun e he => hns e (mem_of_mem_remove he)
  obtain ⟨ps, hps, hsound⟩ := Notes.exists_entries hremoved (Doc.oneEach_remove hone)
  obtain ⟨qs, rfl, hsound'⟩ := Notes.exists_entries hms hone'
  have hplace : ∀ m ∈ ps, m.1 ≠ i := by
    intro m hm heq
    have hmem := Notes.mem_entries hm
    rw [← hps] at hmem
    have hkey := (hremoved _ hmem).of_placeKey heq
    have hhas := has_of_mem hmem
    rw [heq, hkey, has, Doc.get?_remove_self hone] at hhas
    cases hhas
  have hlt : ∀ m ∈ qs, m.1 < n := fun m hm => (hms _ (Notes.mem_entries hm)).of_placeKey
  have hkept : ∀ j, j ≠ i → ∀ key, get? ps.entries (placeKey j key) = get? ns (placeKey j key) := by
    intro j hj key
    rw [← hps, get?_remove_ne fun heq => hj (placeKey_inj heq).1.symm]
  have honeOuter := oneEach_reindex (Doc.oneEach_remove hone) houter
  rw [Notes.reindex_within hsound'] at hinner
  rw [hps, Notes.reindex_behind hsound hplace] at houter
  cases hinner
  cases houter
  refine ⟨fun e he => ?_, fun j key => ?_⟩
  · have hplaced : ∀ (f : Nat → Nat) (ms : Notes), ms.Sound →
        e.1 ∈ Entries.keys (ms.relocated f).entries →
        Placed (fun _ _ => True) e.1 := by
      intro f ms hms hkey
      simp only [Entries.keys, Notes.entries, Notes.relocated, List.map_map, List.mem_map] at hkey
      obtain ⟨m, hm, heq⟩ := hkey
      exact ⟨f m.1, m.2.1, heq.symm, hms.legible m hm, trivial⟩
    rcases Doc.mem_keys_mergeEntries hr (List.mem_map_of_mem he) with hmem | hmem
    · exact hplaced _ _ hsound' hmem
    · exact hplaced _ _ hsound hmem
  · have hget := Doc.get?_mergeEntries honeOuter hr (placeKey j key)
    rw [Notes.atop_relocated hlt hplace, Except.ok.injEq] at hget
    rw [← hget]
    split_ifs with h₁ h₂
    · exact hkept j (by omega) key
    · rfl
    · exact hkept _ (by omega) key

/-! Moving the annotations along a path. -/

def Aside (ks : List String) : Prop := ¬ ks <+: ["wic", "steps"] ∧ ¬ ["wic", "steps"] <+: ks

theorem find?_aside (hks : Aside ks) (hws : get? es "wic" = some (.map ws)) :
    find? ks (.map (put es "wic" (.map (put ws "steps" x)))) = find? ks (.map es) := by
  obtain ⟨hto, hthrough⟩ := hks
  cases ks with
  | nil => exact absurd (List.nil_prefix) hto
  | cons l ks =>
    by_cases hl : l = "wic"
    · subst hl
      cases ks with
      | nil => exact absurd ⟨["steps"], rfl⟩ hto
      | cons m ks =>
        have hm : m ≠ "steps" := by
          rintro rfl
          exact hthrough ⟨ks, rfl⟩
        simp only [find?, Compile.under?_map, get?_put_self, hws, Option.bind_some,
          get?_put_ne hm.symm]
    · simp only [find?, Compile.under?_map, get?_put_ne (Ne.symm hl)]

/-- How the annotation of a workflow changes when the workflow at an address inside is inlined,
which has `n` steps. -/
structure Moved (n : Nat) (q : Address) (note note' : Doc) : Prop where
  kept : ∀ b ks, ¬ b <+: q.dropLast →
    find? (Address.keys b ++ ks) note' = find? ((Address.origin n q b).keys ++ ks) note
  around : ∀ b ks, b <+: q.dropLast → Aside ks →
    find? (Address.keys b ++ ks) note' = find? (Address.keys b ++ ks) note
  placed : ∀ b es, b <+: q.dropLast → find? (Address.keys b ++ ["wic", "steps"]) note' =
    some (.map es) → ∀ e ∈ es, Placed (fun _ _ => True) e.1

theorem find?_put_steps (l : String) (ls : List String) :
    find? ("wic" :: "steps" :: l :: ls) (.map (put es "wic" (.map (put ws "steps" (.map ns))))) =
      (get? ns l).bind (find? ls) := by
  simp only [find?, Compile.under?_map, get?_put_self, Option.bind_some]

theorem moved_last (hone : oneEach note) (hdesc : Describes note yml)
    (hrun : runAt yml i k = some sub) (hlen : (looks sub).length = n)
    (h : inlineNotesAt note n [((i : Int), k)] = .ok note') : Moved n [(i, k)] note note' := by
  obtain ⟨es, ws, ns, ms, inner, outer, r, rfl, hws, hns, hms, hinner, houter, hr, rfl⟩ :=
    inlineNotesAt_last h
  have hnotes : find? ["wic", "steps"] (.map es) = some (.map ns) := by
    simp [find?, hws, hns]
  have hbelow : ms = [] ∨ find? (Address.keys [(i, k)] ++ ["wic", "steps"]) (.map es) =
      some (.map ms) := by
    change (find? (Address.keys [(i, k)] ++ ["wic", "steps"]) (.map es)).getD (.map []) =
      .map ms at hms
    cases hread : find? (Address.keys [(i, k)] ++ ["wic", "steps"]) (.map es) with
    | none =>
      rw [hread] at hms
      exact .inl (Doc.map.inj hms).symm
    | some d =>
      rw [hread] at hms
      exact .inr (congrArg some hms)
  have hplaced : ∀ e ∈ ns, Placed (fun j key => j = i → key = k) e.1 := by
    intro e he
    refine (hdesc [] ns hnotes e he).imp fun j key hj heq => ?_
    subst heq
    exact hasStep_unique hj (hasStep_of_runAt hrun)
  have hwithin : (∀ e ∈ ms, Placed (fun j _ => j < n) e.1) ∧ oneEachEntries ms := by
    rcases hbelow with rfl | hbelow
    · exact ⟨by simp, rfl⟩
    · refine ⟨fun e he => (hdesc _ ms hbelow e he).imp fun j key hj => ?_, ?_⟩
      · rw [List.singleton_append, hasStep_cons (by simp), hrun] at hj
        rw [← hlen]
        exact hasStep_lt hj
      · have hmap := Doc.oneEach_find? hone hbelow
        rwa [oneEach] at hmap
  have honens := Doc.oneEach_find? hone hnotes
  rw [oneEach] at honens
  obtain ⟨hplace, hget⟩ := get?_inlined hplaced hwithin.1 honens hwithin.2 hinner houter hr
  have hown :
      ∀ l ls, find? ("wic" :: "steps" :: l :: ls) (.map es) = (get? ns l).bind (find? ls) := by
    intro l ls
    simp [find?, hws, hns]
  have hinside : ∀ l ls, find? ("wic" :: "steps" :: placeKey i k :: "wic" :: "steps" :: l :: ls)
      (.map es) = (get? ms l).bind (find? ls) := by
    intro l ls
    rw [← List.nil_append ls, ← List.cons_append, ← Compile.under?_map, ← hms]
    exact (Doc.find?_getD ["wic", "steps", placeKey i k, "wic", "steps"] l ls _).symm
  refine ⟨fun b ks hb => ?_, fun b ks hb hks => ?_, fun b fs hb hfs => ?_⟩
  · cases b with
    | nil => exact absurd List.nil_prefix hb
    | cons s b =>
      obtain ⟨j, key⟩ := s
      rw [Address.origin_here, Address.keys_cons_append, find?_put_steps, hget]
      split_ifs
      · rw [Address.keys_cons_append]
        exact (hown _ _).symm
      · rw [Address.keys_cons_append, Address.keys_cons_append]
        exact (hinside _ _).symm
      · rw [Address.keys_cons_append]
        exact (hown _ _).symm
  · obtain rfl := List.prefix_nil.mp hb
    exact find?_aside hks hws
  · obtain rfl := List.prefix_nil.mp hb
    obtain rfl : r = fs := by simpa [find?, Address.keys] using hfs
    exact hplace

theorem inlineNotesAt_moved (hq : q ≠ []) (hone : oneEach note) (hdesc : Describes note yml)
    (hsub : workflowAt q yml = some sub) (hlen : (looks sub).length = n)
    (h : inlineNotesAt note n (q.map fun s => ((s.1 : Int), s.2)) = .ok note') :
    Moved n q note note' := by
  induction q generalizing note note' yml with
  | nil => exact absurd rfl hq
  | cons s q ih =>
    obtain ⟨i, k⟩ := s
    obtain ⟨w, hrun, hsub⟩ := Option.bind_eq_some_iff.mp hsub
    by_cases hq : q = []
    · subst hq
      cases hsub
      exact moved_last hone hdesc hrun hlen h
    have hlast : ((i, k) :: q).dropLast = (i, k) :: q.dropLast := List.dropLast_cons_of_ne_nil hq
    rcases inlineNotesAt_cons (by simpa using hq) h with ⟨rfl, hnone⟩ |
      ⟨es, ws, ns, v, v', rfl, hws, hns, hv, hv', rfl⟩
    · -- nothing is said about steps further down
      have hdeep : ∀ b ks, b ≠ [] → find? (Address.keys ((i, k) :: b) ++ ks) note' = none := by
        intro b ks hb
        obtain ⟨⟨j, key⟩, b, rfl⟩ := List.exists_cons_of_ne_nil hb
        have happend : Address.keys ((i, k) :: (j, key) :: b) ++ ks =
            ["wic", "steps", placeKey i k, "wic", "steps"] ++
            placeKey j key :: (Address.keys b ++ ks) := by
          simp [Address.keys]
        rw [happend, Doc.find?_append, hnone]
        rfl
      refine ⟨fun b ks hb => ?_, fun _ _ _ _ => rfl, fun b es _ hes e he =>
        (hdesc b es hes e he).imp fun _ _ _ => trivial⟩
      rw [hlast] at hb
      cases b with
      | nil => exact absurd List.nil_prefix hb
      | cons s b =>
        rw [Address.origin_cons hq]
        split
        · rename_i heq
          subst heq
          have hb : b ≠ [] :=
            fun hnil => hb (by rw [hnil]; exact List.cons_prefix_cons.mpr ⟨rfl, List.nil_prefix⟩)
          rw [hdeep b ks hb, hdeep _ ks (Address.origin_ne_nil hb)]
        · rfl
    · have hfound : find? ["wic", "steps", placeKey i k] (.map es) = some v := by
        simp [find?, hws, hns, hv]
      have hmoved := ih hq (Doc.oneEach_find? hone hfound) (hdesc.inner hrun hfound) hsub hv'
      have hread : ∀ b ks, find? (Address.keys ((i, k) :: b) ++ ks)
          (.map (put es "wic" (.map (put ws "steps" (.map (put ns (placeKey i k) v')))))) =
          find? (Address.keys b ++ ks) v' := by
        intro b ks
        rw [Address.keys_cons_append, find?_put_steps, get?_put_self]
        rfl
      have hread' : ∀ b ks, find? (Address.keys ((i, k) :: b) ++ ks) (.map es) =
          find? (Address.keys b ++ ks) v := by
        intro b ks
        rw [find?_keys_cons, hfound]
        rfl
      refine ⟨fun b ks hb => ?_, fun b ks hb hks => ?_, fun b fs hb hfs => ?_⟩
      · rw [hlast] at hb
        cases b with
        | nil => exact absurd List.nil_prefix hb
        | cons s b =>
          obtain ⟨j, key⟩ := s
          rw [Address.origin_cons hq]
          split
          · rename_i heq
            cases heq
            rw [hread, hread']
            exact hmoved.kept b ks fun hpre => hb (List.cons_prefix_cons.mpr ⟨rfl, hpre⟩)
          · rename_i hne
            have hkey : placeKey i k ≠ placeKey j key := fun heq => by
              obtain ⟨rfl, rfl⟩ := placeKey_inj heq
              exact hne rfl
            rw [find?_keys_cons, find?_keys_cons]
            simp [find?, hws, hns, get?_put_ne hkey]
      · cases b with
        | nil => exact find?_aside hks hws
        | cons s b =>
          obtain ⟨rfl, hpre⟩ := List.cons_prefix_cons.mp (hlast ▸ hb)
          rw [hread, hread']
          exact hmoved.around b ks hpre hks
      · cases b with
        | nil =>
          obtain rfl : put ns (placeKey i k) v' = fs := by simpa [find?, Address.keys] using hfs
          have hplaced : ∀ e ∈ ns, Placed (fun _ _ => True) e.1 := fun e he =>
            (hdesc [] ns (by simp [find?, Address.keys, hws, hns]) e he).imp fun _ _ _ => trivial
          intro e he
          rcases mem_put he with he | rfl
          · exact hplaced e he
          · exact hplaced (.str (placeKey i k), v) (mem_of_get? hv)
        | cons s b =>
          obtain ⟨rfl, hpre⟩ := List.cons_prefix_cons.mp (hlast ▸ hb)
          rw [hread] at hfs
          exact hmoved.placed b fs hpre hfs

end Workflow

end WorkflowInference
