import WorkflowInference.Proofs.Compile.Enclosed
import WorkflowInference.Proofs.Merging

/-!
A compiled workflow with all documents inside it stands alone. Each step holds the document of the
part at its place, which holds those of its own steps in the same way; what they say about name
spaces is left out there and gathered in the outermost document; all else is as it was.
-/
namespace WorkflowInference

open Entries Result
open List hiding getD
open Doc (oneEach oneEachEntries oneEachItems)

variable {xs : List Doc} {m : Nat} {w a : Entries} {d : Doc} {q : PartTree}

section Once

theorem Doc.oneEach_set (m : Nat) (hxs : oneEachItems xs) (hy : oneEach y) :
    oneEachItems (xs.set m y) := by
  induction xs generalizing m with
  | nil => rfl
  | cons x xs ih =>
    simp only [oneEachItems, Bool.and_eq_true] at hxs
    cases m with
    | zero => simp [oneEachItems, hy, hxs.2]
    | succ m => simp [oneEachItems, hxs.1, ih m hxs.2]

theorem Doc.oneEach_update (hes : oneEachEntries es) (hfs : oneEachEntries fs) :
    oneEachEntries (update es fs) := by
  have hvalues : ∀ f ∈ fs, oneEach f.2 := fun f hf => oneEach_of_mem hfs hf
  clear hfs
  unfold update
  induction fs generalizing es with
  | nil => exact hes
  | cons f fs ih =>
    exact ih (oneEach_write hes (hvalues f mem_cons_self)) fun g hg =>
      hvalues g (mem_cons_of_mem f hg)

namespace Entries

theorem get?_update_iff (hfs : oneEachEntries fs)
    (hagree : ∀ k v w, get? es k = some v → get? fs k = some w → v = w) :
    get? (update es fs) k = some v ↔ get? es k = some v ∨ get? fs k = some v := by
  unfold update
  induction fs generalizing es with
  | nil => simp
  | cons f fs ih =>
    obtain ⟨l, w⟩ := f
    simp only [oneEachEntries, Bool.and_eq_true] at hfs
    rw [foldl_cons]
    by_cases hl : ∃ s, l = .str s
    · obtain ⟨s, rfl⟩ := hl
      have hnone : get? fs s = none := by simpa [Doc.str?, has] using hfs.1.1
      have hcons : ∀ m, get? ((.str s, w) :: fs) m = if s = m then some w else get? fs m :=
        fun _ => rfl
      rw [write_str, ih hfs.2 fun m u x hu hx => ?_, get?_put, hcons]
      · by_cases hk : s = k
        · subst hk
          rw [if_pos rfl, if_pos rfl, hnone]
          constructor
          · rintro (hv | hv)
            · exact .inr hv
            · cases hv
          · rintro (hv | hv)
            · rw [hagree s v w hv (by rw [hcons, if_pos rfl])]
              exact .inl rfl
            · exact .inl hv
        · rw [if_neg hk, if_neg hk]
      · rw [get?_put] at hu
        split at hu
        · rename_i hm
          rw [← hm, hnone] at hx
          cases hx
        · rename_i hm
          exact hagree m u x hu (by rw [hcons, if_neg hm, hx])
    · have hne : ∀ s, l ≠ .str s := fun s hs => hl ⟨s, hs⟩
      rw [ih hfs.2 fun s u x hu hx =>
        hagree s u x (by rwa [get?_write_ne (hne s)] at hu) (by rwa [get?_cons_ne (hne s)]),
        get?_write_ne (hne k), get?_cons_ne (hne k)]

end Entries

end Once

namespace Compile

structure Headed (es spaces : Entries) : Prop where
  once : oneEachEntries es
  spaces : getD es "$namespaces" (.map []) = .map spaces

def Binds (d : Doc) (k : String) (v : Doc) : Prop :=
  ((under? d "$namespaces").bind Doc.map?).bind (get? · k) = some v

def Unheaded (d : Doc) : Prop := under? d "$namespaces" = none ∧ under? d "$schemas" = none

def apart (es : Entries) : Entries :=
  es.filter fun e => !(e.1 == .str "steps") && !(e.1 == .str "$namespaces")

def withRun : Doc → Doc → Doc
  | .map fs, run => .map (put fs "run" run)
  | d, _ => d

inductive Encloses : PartTree → Doc → Prop
  | leaf {q : PartTree} (hleaf : q.subs = []) : Encloses q q.part.cwl
  | workflow {q : PartTree} {es fs : Entries} {run : Nat → Doc} (hcwl : q.part.cwl = .map es)
      (hlen : q.subs.length = q.steps.length)
      (hsteps : get? fs "steps" = some (.list (q.steps.mapIdx fun k s => withRun s (bare (run k)))))
      (hruns : ∀ k p, q.subs[k]? = some p → Encloses p (run k))
      (hbare : ∀ k p, q.subs[k]? = some p → Unheaded (bare (run k)))
      (hrest : apart fs = apart es) : Encloses q (.map fs)

section Embedding

variable {es fs spaces c gs : Entries} {k name : String} {v : Doc} {b : Nat}

theorem Headed.spaces_once (h : Headed es spaces) : oneEachEntries spaces := by
  have hspaces := h.spaces
  rw [getD] at hspaces
  cases hget : get? es "$namespaces" with
  | none =>
    rw [hget] at hspaces
    cases hspaces
    rfl
  | some v =>
    rw [hget, Option.getD_some] at hspaces
    have hv := Doc.oneEach_of_mem h.once (mem_of_get? hget)
    rwa [hspaces, oneEach] at hv

theorem Headed.binds_iff (h : Headed es spaces) : Binds (.map es) k v ↔ get? spaces k = some v := by
  have hspaces := h.spaces
  rw [getD] at hspaces
  rw [Binds, under?_map]
  cases hget : get? es "$namespaces" with
  | none =>
    rw [hget] at hspaces
    cases hspaces
    simp
  | some w =>
    rw [hget, Option.getD_some] at hspaces
    rw [hspaces]
    rfl

theorem Headed.unheaded (h : Headed es spaces) : Unheaded (bare (.map es)) := by
  rw [bare, Unheaded, under?_map, under?_map, get?_remove_ne (by decide)]
  exact ⟨Doc.get?_remove_self h.once, Doc.get?_remove_self (Doc.oneEach_remove h.once)⟩

theorem apart_put (h : k = "steps" ∨ k = "$namespaces") : apart (put es k v) = apart es := by
  have hk : (!(Doc.str k == .str "steps") && !(Doc.str k == .str "$namespaces")) = false := by
    rcases h with rfl | rfl <;> simp
  fun_induction put es k v with
  | case1 => simp [apart, hk]
  | case2 => rw [apart, apart, filter_cons_of_neg (by simp [hk]), filter_cons_of_neg (by simp [hk])]
  | case3 _ _ _ _ ih =>
    simp only [apart, filter_cons] at ih ⊢
    rw [ih]
  | case4 _ _ _ ih =>
    simp only [apart, filter_cons] at ih ⊢
    rw [ih]

structure Told (xs : List Doc) : Prop where
  ids : (xs.map PartTree.stepId).Nodup
  texts : ∀ x ∈ xs, ∃ fs id, x = .map fs ∧ get? fs "id" = some (.str id)

theorem find_eq_ok (hxs : Told xs) (hm : xs[m]? = some (.map fs))
    (hid : get? fs "id" = some (.str name)) :
    embed.find (fun s => do return (← s.fieldD "id" .null) == .str name) xs b = .ok (b + m) := by
  induction xs generalizing m b with
  | nil => cases hm
  | cons x xs ih =>
    obtain ⟨gs, id, rfl, hget⟩ := hxs.texts x mem_cons_self
    have hfield : (Doc.map gs).fieldD "id" .null = .ok (.str id) := by
      rw [Doc.fieldD, getD, hget, Option.getD_some]
    rw [embed.find, hfield]
    cases m with
    | zero =>
      cases hm
      cases hget.symm.trans hid
      change (if (Doc.str name == Doc.str name) then pure b else _) = _
      rw [if_pos (by simp)]
      rfl
    | succ m =>
      have hrest : Told xs :=
        ⟨(nodup_cons.mp hxs.ids).2, fun y hy => hxs.texts y (mem_cons_of_mem _ hy)⟩
      have hne : id ≠ name := by
        rintro rfl
        refine (nodup_cons.mp hxs.ids).1 ?_
        rw [stepId_eq hget, ← stepId_eq hid]
        exact mem_map_of_mem (mem_of_getElem? hm)
      change (if (Doc.str id == Doc.str name) then pure b else embed.find _ xs (b + 1)) = _
      rw [if_neg (by simpa using hne), ih hrest hm, Nat.add_right_comm, Nat.add_assoc]

theorem embed_eq_ok (hw : Headed w a) (hxs : get? w "steps" = some (.list xs)) (htold : Told xs)
    (hm : xs[m]? = some (.map gs)) (hid : get? gs "id" = some (.str name)) (hrs : Headed rs c) :
    embed w name (.map rs) = .ok
      (put (put w "steps" (.list (xs.set m (.map (put gs "run" (bare (.map rs))))))) "$namespaces"
      (.map (update a c))) := by
  have hfind := find_eq_ok (b := 0) htold hm hid
  rw [Nat.zero_add] at hfind
  have hinner : (Doc.map rs).fieldD "$namespaces" (.map []) = .ok (.map c) := by
    rw [Doc.fieldD, hrs.spaces]
  have hstep : (xs.getD m .null).entries = .ok gs := by
    rw [getD_eq_getElem?_getD, hm]
    rfl
  refine bind_eq_ok.mpr ⟨.list xs, field_eq_ok.mpr hxs, bind_eq_ok.mpr ⟨xs, rfl, ?_⟩⟩
  refine bind_eq_ok.mpr ⟨m, hfind, bind_eq_ok.mpr ⟨.map c, hinner, ?_⟩⟩
  dsimp only
  rw [hw.spaces]
  refine bind_eq_ok.mpr ⟨_, rfl, bind_eq_ok.mpr ⟨rs, rfl, bind_eq_ok.mpr ⟨gs, hstep, rfl⟩⟩⟩

theorem Headed.put_spaces (hw : Headed w a) (hc : oneEachEntries c)
    (hxs : oneEachItems xs) :
    Headed (put (put w "steps" (.list xs)) "$namespaces" (.map (update a c))) (update a c) := by
  have hspaces : oneEach (.map (update a c)) := by
    rw [oneEach]
    exact Doc.oneEach_update hw.spaces_once hc
  refine ⟨Doc.oneEach_put (Doc.oneEach_put hw.once (by rwa [oneEach])) hspaces, ?_⟩
  rw [getD, get?_put_self, Option.getD_some]

theorem oneEach_bare (h : oneEach d) : oneEach (bare d) := by
  cases d with
  | map es =>
    rw [oneEach] at h
    rw [bare, oneEach]
    exact Doc.oneEach_remove (Doc.oneEach_remove h)
  | _ => exact h

theorem Told.set (h : Told xs) (hm : xs[m]? = some (.map gs)) (run : Doc) :
    Told (xs.set m (.map (put gs "run" run))) := by
  refine ⟨by rw [map_stepId_set run hm]; exact h.ids, fun x hx => ?_⟩
  rcases mem_or_eq_of_mem_set hx with hx | rfl
  · exact h.texts x hx
  · obtain ⟨fs, id, heq, hid⟩ := h.texts _ (mem_of_getElem? hm)
    cases heq
    exact ⟨_, id, rfl, by rw [get?_put_ne (by decide), hid]⟩

structure Filled (w : Entries) (xs : List Doc) (b : Nat) (ts : List PartTree) (w' : Entries)
    (ys : List Doc) : Prop where
  steps : get? w' "steps" = some (.list ys)
  rest : apart w' = apart w
  length : ys.length = xs.length
  before : ∀ m < b, ys[m]? = xs[m]?
  runs : ∀ k t run, ts[k]? = some t → t.embedded = .ok run →
    ys[b + k]? = (xs[b + k]?).map fun x => withRun x (bare run)

theorem embedAll_filled {U : String → Doc → Prop} (hU : ∀ k v u, U k v → U k u → v = u)
    (hw : Headed w a) (ha : ∀ k v, get? a k = some v → U k v)
    (hxs : get? w "steps" = some (.list xs)) (htold : Told xs)
    (hts : ∀ k t, ts[k]? = some t → t.part.namespaces.getLast? = some t.lastName ∧
      ∃ gs, xs[b + k]? = some (.map gs) ∧ get? gs "id" = some (.str t.lastName))
    (hruns : ∀ t ∈ ts, ∃ rs c, t.embedded = .ok (.map rs) ∧ Headed rs c ∧
      ∀ k v, get? c k = some v → U k v) :
    ∃ w' a' ys, embedAll w ts = .ok w' ∧ Headed w' a' ∧ Filled w xs b ts w' ys ∧
      ∀ k v, get? a' k = some v ↔ get? a k = some v ∨ ∃ t ∈ ts, ∃ run, t.embedded = .ok run ∧
      Binds run k v := by
  induction ts generalizing w a xs b with
  | nil => exact ⟨w, a, xs, rfl, hw, ⟨hxs, rfl, rfl, fun _ _ => rfl, by simp⟩, by simp⟩
  | cons t ts ih =>
    obtain ⟨hlast, gs, hgs, hid⟩ := hts 0 t rfl
    obtain ⟨rs, c, hrun, hrs, hc⟩ := hruns t mem_cons_self
    rw [Nat.add_zero] at hgs
    have hembed := embed_eq_ok hw hxs htold hgs hid hrs
    have hitems : oneEachItems xs := by
      have := Doc.oneEach_of_mem hw.once (mem_of_get? hxs)
      rwa [oneEach] at this
    have hstep : oneEach (.map (put gs "run" (bare (.map rs)))) := by
      have hgs := Doc.oneEach_of_item hitems (mem_of_getElem? hgs)
      rw [oneEach] at hgs ⊢
      exact Doc.oneEach_put hgs (oneEach_bare (by rw [oneEach]; exact hrs.once))
    have hagree : ∀ k v u, get? a k = some v → get? c k = some u → v = u :=
      fun k v u hv hu => hU k v u (ha k v hv) (hc k u hu)
    have hboth : ∀ k v, get? (update a c) k = some v ↔
        get? a k = some v ∨ get? c k = some v :=
      fun k v => get?_update_iff hrs.spaces_once hagree
    obtain ⟨w', a', ys, hall, hw', hfill, hspaces⟩ := ih (b := b + 1)
      (hw.put_spaces hrs.spaces_once (Doc.oneEach_set b hitems hstep))
      (fun k v hv => ((hboth k v).mp hv).elim (ha k v) (hc k v))
      (by rw [get?_put_ne (by decide), get?_put_self]) (htold.set hgs _)
      (fun k u hu => by
        obtain ⟨hlast, fs, hfs, hid⟩ := hts (k + 1) u hu
        refine ⟨hlast, fs, ?_, hid⟩
        rw [getElem?_set_ne (by omega), ← hfs]
        congr 1
        omega)
      (fun u hu => hruns u (mem_cons_of_mem t hu))
    refine ⟨w', a', ys, ?_, hw', ⟨hfill.steps, ?_, ?_, fun m hm => ?_, ?_⟩, fun k v => ?_⟩
    · rw [embedAll, hrun]
      dsimp only
      rw [hlast]
      dsimp only
      rw [hembed]
      exact hall
    · rw [hfill.rest, apart_put (.inr rfl), apart_put (.inl rfl)]
    · rw [hfill.length, length_set]
    · rw [hfill.before m (by omega), getElem?_set_ne (by omega)]
    · rintro (_ | k) u run hu hembedded
      · cases hu
        cases hrun.symm.trans hembedded
        rw [Nat.add_zero, hfill.before b (by omega),
          getElem?_set_self (List.getElem?_eq_some_iff.mp hgs).1, hgs]
        rfl
      · have hrest := hfill.runs k u run hu hembedded
        rw [getElem?_set_ne (by omega)] at hrest
        rw [show b + (k + 1) = b + 1 + k by omega, hrest]
    · rw [hspaces, hboth, or_assoc, exists_mem_cons_iff]
      refine or_congr Iff.rfl (or_congr ⟨fun hv => ⟨_, hrun, hrs.binds_iff.mpr hv⟩, ?_⟩ Iff.rfl)
      rintro ⟨run, hembedded, hv⟩
      cases hrun.symm.trans hembedded
      exact hrs.binds_iff.mp hv

theorem Fitted.told (h : Fitted q es) : Told q.steps := by
  refine ⟨h.ids, fun x hx => ?_⟩
  obtain ⟨k, hk⟩ := getElem?_of_mem hx
  obtain ⟨p, hp⟩ : ∃ p, q.subs[k]? = some p := by
    have hlt := (List.getElem?_eq_some_iff.mp hk).1
    exact ⟨_, getElem?_eq_getElem (by rw [h.length]; exact hlt)⟩
  obtain ⟨-, fs, hfs, hid⟩ := h.named k p hp
  cases hk.symm.trans hfs
  exact ⟨fs, _, rfl, hid⟩

end Embedding

namespace PartTree

theorem parts_eq (q : PartTree) : q.parts = q.part :: q.subs.flatMap parts := by
  obtain ⟨p, ts⟩ := q
  have hall : partsAll ts = ts.flatMap parts := by
    induction ts with
    | nil => rfl
    | cons t ts ih => rw [partsAll, ih, flatMap_cons]
  rw [parts, hall]
  rfl

theorem induction {P : PartTree → Prop} (h : ∀ q : PartTree, (∀ p ∈ q.subs, P p) → P q)
    (q : PartTree) : P q := by
  obtain ⟨part, ts⟩ := q
  refine h (.node part ts) fun p hp => ?_
  have : sizeOf p < sizeOf (PartTree.node part ts) := by
    have := sizeOf_lt_of_mem (show p ∈ ts from hp)
    simp only [node.sizeOf_spec]
    omega
  exact induction h p
termination_by sizeOf q
decreasing_by assumption

theorem Everywhere.of_parts {P : Part → Prop} (h : ∀ p ∈ q.parts, P p) :
    q.Everywhere fun s => P s.part := by
  intro is
  induction is generalizing q with
  | nil =>
    rintro p ⟨⟩
    exact h _ (by rw [parts_eq]; exact mem_cons_self)
  | cons i is ih =>
    intro p hp
    obtain ⟨s, hs, hp⟩ := at?_cons hp
    refine ih (fun x hx => h x ?_) p hp
    rw [parts_eq]
    exact mem_cons_of_mem _ (mem_flatMap.mpr ⟨s, mem_of_getElem? hs, hx⟩)

def runOf (q : PartTree) (k : Nat) : Doc :=
  ((q.subs[k]?).bind fun p => p.embedded.toOption).getD .null

theorem runOf_eq (hp : q.subs[k]? = some p) (hrun : p.embedded = .ok run) : q.runOf k = run := by
  rw [runOf, hp, Option.bind_some, hrun]
  rfl

theorem steps_filled (hfit : Fitted q es) (hfill : Filled es q.steps 0 q.subs w ys)
    (hruns : ∀ t ∈ q.subs, ∃ run, t.embedded = .ok run) :
    ys = q.steps.mapIdx fun k s => withRun s (bare (q.runOf k)) := by
  refine ext_getElem? fun k => ?_
  rw [getElem?_mapIdx]
  cases hk : q.subs[k]? with
  | some t =>
    obtain ⟨run, hrun⟩ := hruns t (mem_of_getElem? hk)
    have := hfill.runs k t run hk hrun
    rwa [Nat.zero_add, ← runOf_eq hk hrun] at this
  | none =>
    have hlen := getElem?_eq_none_iff.mp hk
    rw [hfit.length] at hlen
    rw [getElem?_eq_none (by rw [hfill.length]; exact hlen), getElem?_eq_none hlen]
    rfl

structure Ready (q : PartTree) : Prop where
  fitted : q.subs = [] ∨ ∃ es, Fitted q es
  headed : ∃ es spaces, q.part.cwl = .map es ∧ Headed es spaces

theorem embedded_encloses {U : String → Doc → Prop} (hU : ∀ k v u, U k v → U k u → v = u)
    (q : PartTree) (hq : q.Everywhere Ready)
    (hdocs : ∀ p ∈ q.parts, ∀ k v, Binds p.cwl k v → U k v) :
    ∃ fs a, q.embedded = .ok (.map fs) ∧ Headed fs a ∧ Encloses q (.map fs) ∧
      ∀ k v, get? a k = some v ↔ ∃ p ∈ q.parts, Binds p.cwl k v := by
  induction q using PartTree.induction with
  | h q ih =>
    obtain ⟨es, a, hcwl, hes⟩ := hq.self.headed
    rw [parts_eq] at hdocs ⊢
    have hown : ∀ k v, get? a k = some v ↔ Binds q.part.cwl k v :=
      fun k v => by rw [hcwl, hes.binds_iff]
    have hsubs : ∀ t ∈ q.subs, ∃ rs c, t.embedded = .ok (.map rs) ∧ Headed rs c ∧ Encloses t
        (.map rs) ∧ ∀ k v, get? c k = some v ↔ ∃ p ∈ t.parts, Binds p.cwl k v := fun t ht =>
      ih t ht (hq.sub ht) fun p hp => hdocs p (mem_cons_of_mem _ (mem_flatMap.mpr ⟨t, ht, hp⟩))
    rcases hq.self.fitted with hleaf | ⟨es', hfit⟩
    · refine ⟨es, a, ?_, hes, hcwl ▸ .leaf hleaf, fun k v => ?_⟩
      · obtain ⟨part, ts⟩ := q
        cases hleaf
        rw [embedded, show part.cwl = .map es from hcwl]
        dsimp only
        split
        · rfl
        · rfl
      · simp [hleaf, hown]
    · cases hcwl.symm.trans hfit.cwl
      obtain ⟨w, b, ys, hall, hw, hfill, hspaces⟩ := embedAll_filled (b := 0) hU hes
        (fun k v hv => hdocs q.part mem_cons_self k v ((hown k v).mp hv)) hfit.steps hfit.told
        (fun k t ht => by rw [Nat.zero_add]; exact hfit.named k t ht) fun t ht => by
          obtain ⟨rs, c, hrs, hhead, -, hbinds⟩ := hsubs t ht
          refine ⟨rs, c, hrs, hhead, fun k v hv => ?_⟩
          obtain ⟨p, hp, hv⟩ := (hbinds k v).mp hv
          exact hdocs p (mem_cons_of_mem _ (mem_flatMap.mpr ⟨t, ht, hp⟩)) k v hv
      have hrun : ∀ k t, q.subs[k]? = some t → Encloses t (q.runOf k) ∧
          Unheaded (bare (q.runOf k)) := by
        intro k t ht
        obtain ⟨rs, c, hrs, hhead, hencloses, -⟩ := hsubs t (mem_of_getElem? ht)
        rw [runOf_eq ht hrs]
        exact ⟨hencloses, hhead.unheaded⟩
      have hsteps := steps_filled hfit hfill fun t ht => by
        obtain ⟨rs, c, hrs, -⟩ := hsubs t ht
        exact ⟨_, hrs⟩
      refine ⟨w, b, ?_, hw, .workflow hcwl hfit.length (by rw [hfill.steps, hsteps])
        (fun k t ht => (hrun k t ht).1) (fun k t ht => (hrun k t ht).2) hfill.rest, fun k v => ?_⟩
      · obtain ⟨part, ts⟩ := q
        rw [embedded, show part.cwl = .map es from hcwl]
        dsimp only
        rw [hfit.cls, if_pos (by simp), show embedAll es ts = .ok w from hall]
        rfl
      · rw [hspaces, hown, exists_mem_cons_iff]
        refine or_congr Iff.rfl ⟨?_, ?_⟩
        · rintro ⟨t, ht, run, hembedded, hv⟩
          obtain ⟨rs, c, hrs, hhead, -, hbinds⟩ := hsubs t ht
          cases hrs.symm.trans hembedded
          obtain ⟨p, hp, hv⟩ := (hbinds k v).mp (hhead.binds_iff.mp hv)
          exact ⟨p, mem_flatMap.mpr ⟨t, ht, hp⟩, hv⟩
        · rintro ⟨p, hp, hv⟩
          obtain ⟨t, ht, hp⟩ := mem_flatMap.mp hp
          obtain ⟨rs, c, hrs, hhead, -, hbinds⟩ := hsubs t ht
          exact ⟨t, ht, _, hrs, hhead.binds_iff.mpr ((hbinds k v).mpr ⟨p, hp, hv⟩)⟩

theorem withEmbedded_eq (h : q.embedded = .ok d) :
    q.withEmbedded = .ok (.node { q.part with cwl := d } q.subs) := by
  obtain ⟨part, ts⟩ := q
  rw [withEmbedded, h]
  rfl

end PartTree

/-- A part that comes of a whole pass over a workflow, in which no step was put in. -/
def Finished (set : Setting) (p : PartTree) : Prop :=
  p.subs = [] ∨ ∃ m u s, Nonempty (OnceRun (compileAt set m) set u s) ∧ p = s.tree

variable {set : Setting}

theorem compile_finished (hno : set.options.insertSteps = false)
    (h : (compile set t).Yields r) : r.tree.Everywhere (Finished set) := by
  obtain ⟨s, hs, rfl⟩ := h.of_map
  intro is p hp
  rcases Faithful.node ⟨hs, compileAt_unaltered hno hs⟩ hp with hleaf | ⟨m, u, v, hv, rfl, -⟩
  · exact .inl hleaf
  · exact .inr ⟨m, u, v, hv.once, rfl⟩

theorem Finished.fitted (h : Finished set p)
    (hids : ((stepsOf p.part.cwl).map PartTree.stepId).Nodup) :
    p.subs = [] ∨ ∃ es, Fitted p es := by
  rcases h with hleaf | ⟨m, u, s, ⟨run⟩, rfl⟩
  · exact .inl hleaf
  · exact .inr (run.fitted hids)

def wellHeaded (d : Doc) : Bool :=
  oneEach d && d.isMap && ((under? d "$namespaces").getD (.map [])).isMap

theorem headed_of_wellHeaded (h : wellHeaded d) : ∃ es spaces, d = .map es ∧ Headed es spaces := by
  simp only [wellHeaded, Bool.and_eq_true] at h
  obtain ⟨⟨honce, hmap⟩, hspaces⟩ := h
  cases d with
  | map es =>
    rw [under?_map] at hspaces
    cases hget : (get? es "$namespaces").getD (.map []) with
    | map spaces => exact ⟨es, spaces, rfl, by rwa [oneEach] at honce, hget⟩
    | _ =>
      rw [hget] at hspaces
      cases hspaces
  | _ => cases hmap

/-- With all documents inside it, a compiled workflow stands alone. -/
theorem compile_selfContained {set : Setting} {t : Task} {r : Compiled}
    (h : (compile set t).Yields r)
    (hpass : set.options.insertSteps = false ∨ r.tree.Everywhere (Finished set))
    (hids : ∀ p ∈ r.tree.parts, ((stepsOf p.cwl).map PartTree.stepId).Nodup)
    (hheads : ∀ p ∈ r.tree.parts, wellHeaded p.cwl = true)
    (hone : ∀ p ∈ r.tree.parts, ∀ q ∈ r.tree.parts, ∀ k v u, Binds p.cwl k v →
      Binds q.cwl k u → v = u) :
    ∃ full, r.tree.withEmbedded = .ok full ∧
      full = .node { r.tree.part with cwl := full.part.cwl } r.tree.subs ∧
      Encloses r.tree full.part.cwl ∧ ∀ k v, Binds full.part.cwl k v ↔
      ∃ p ∈ r.tree.parts, Binds p.cwl k v := by
  have hfinished : r.tree.Everywhere (Finished set) :=
    hpass.elim (fun hno => compile_finished hno h) id
  have hready : r.tree.Everywhere PartTree.Ready := fun is p hp =>
    ⟨(hfinished is p hp).fitted (PartTree.Everywhere.of_parts hids is p hp),
      headed_of_wellHeaded (PartTree.Everywhere.of_parts hheads is p hp)⟩
  obtain ⟨fs, a, hembedded, hhead, hencloses, hbinds⟩ := PartTree.embedded_encloses
    (U := fun k v => ∃ p ∈ r.tree.parts, Binds p.cwl k v)
    (by rintro k v u ⟨p, hp, hv⟩ ⟨q, hq, hu⟩; exact hone p hp q hq k v u hv hu) r.tree hready
    fun p hp k v hv => ⟨p, hp, hv⟩
  refine ⟨.node { r.tree.part with cwl := .map fs } r.tree.subs, ?_, rfl, hencloses, fun k v => ?_⟩
  · exact PartTree.withEmbedded_eq hembedded
  · rw [← hbinds]
    exact hhead.binds_iff

namespace Sample

def spacedTool (stem : String) (ins outs : List (String × Doc)) (spaces : Doc) : StepId × Tool :=
  (⟨stem, globalSpace⟩, ⟨stem ++ ".cwl", Doc.obj [("class", .str "CommandLineTool"),
    ("inputs", Doc.obj ins), ("outputs", Doc.obj outs), ("$namespaces", spaces)]⟩)

def spacedTools : Registry :=
  [spacedTool "echo" [("m", text)] [("o", file)] (Doc.obj [("ex", .str "http://example.org/")]),
    catTool]

def nested : Doc :=
  workflow [step "echo" [("in", Doc.obj [("m", inline "x")])],
    inner "sub.wic"
      (workflow [step "echo" [("in", Doc.obj [("m", inline "y")])], step "cat" []])]

def prefixes : List (String × String) := [("edam", ontologySpace), ("ex", "http://example.org/")]

def tabled (d : Doc) : Bool :=
  (((under? d "$namespaces").bind Doc.map?).getD []).all fun e => prefixes.any fun x =>
    e.1 == .str x.1 && e.2 == .str x.2

variable {v : Doc} {k : String}

theorem tabled_binds (h : tabled d) (hv : Binds d k v) :
    ∃ x ∈ prefixes, x.1 = k ∧ v = .str x.2 := by
  obtain ⟨spaces, hspaces, hget⟩ := Option.bind_eq_some_iff.mp hv
  rw [tabled, hspaces, Option.getD_some, all_eq_true] at h
  obtain ⟨x, hx, heq⟩ := any_eq_true.mp (h _ (mem_of_get? hget))
  simp only [Bool.and_eq_true, Doc.beq_str_iff, Doc.str.injEq] at heq
  exact ⟨x, hx, heq.1.symm, heq.2⟩

theorem tabled_agree (hd : tabled d) (he : tabled e) (hv : Binds d k v) (hu : Binds e k u) :
    v = u := by
  obtain ⟨x, hx, rfl, rfl⟩ := tabled_binds hd hv
  obtain ⟨y, hy, hxy, rfl⟩ := tabled_binds he hu
  have hinj : ∀ x ∈ prefixes, ∀ y ∈ prefixes, y.1 = x.1 → x.2 = y.2 := by decide
  rw [hinj x hx y hy hxy]

end Sample

open Sample in
theorem compile_selfContained_nested :
    ∃ r full, (compile (setting spacedTools) (.root "wf.wic" nested (Graph.empty "" ""))).Yields r ∧
      r.tree.withEmbedded = .ok full ∧ Encloses r.tree full.part.cwl ∧
      Binds full.part.cwl "ex" (.str "http://example.org/") := by
  have hsome : (compiled (setting spacedTools) "wf.wic" nested).any (fun r =>
    r.tree.parts.all (fun p =>
      decide ((stepsOf p.cwl).map PartTree.stepId).Nodup && (wellHeaded p.cwl && tabled p.cwl)) &&
      r.tree.parts.any fun p => ((under? p.cwl "$namespaces").bind Doc.map?).any fun spaces =>
        (Entries.get? spaces "ex").any (· == .str "http://example.org/")) = true := by
    decide +kernel
  obtain ⟨r, hr, hall⟩ := Logged.yields_of_any hsome
  rw [Bool.and_eq_true, List.all_eq_true] at hall
  obtain ⟨hall, hex⟩ := hall
  have hparts : ∀ p ∈ r.tree.parts, ((stepsOf p.cwl).map PartTree.stepId).Nodup ∧
      wellHeaded p.cwl = true ∧ tabled p.cwl = true := fun p hp => by simpa using hall p hp
  obtain ⟨full, hfull, -, hencloses, hbinds⟩ := compile_selfContained hr (.inl rfl)
    (fun p hp => (hparts p hp).1) (fun p hp => (hparts p hp).2.1)
    fun p hp q hq k v u hv hu => tabled_agree (hparts p hp).2.2 (hparts q hq).2.2 hv hu
  refine ⟨r, full, hr, hfull, hencloses, (hbinds _ _).mpr ?_⟩
  obtain ⟨p, hp, hex⟩ := List.any_eq_true.mp hex
  obtain ⟨spaces, hspaces, hex⟩ := Option.any_eq_true _ _ |>.mp hex
  obtain ⟨v, hv, heq⟩ := Option.any_eq_true _ _ |>.mp hex
  exact ⟨p, hp, by rw [Binds, hspaces, Option.bind_some, hv, Doc.beq_str_iff.mp heq]⟩

end Compile

end WorkflowInference
