import WorkflowInference.Proofs.Compile.Nesting
import WorkflowInference.Proofs.Path

/-!
Putting steps in, and compiling anew. A step that is put in moves the annotations of the later steps
on with them and adds one of its own; the step itself has no identifier. The rounds of compilation
end with one that puts nothing in, or with the last one allowed; it is the number of workflows
around that decides whether the compilation is then given up.
-/
namespace WorkflowInference

open Entries Logged
open List hiding getD

namespace Text

theorem trim_space (s : String) : trim (" " ++ s) = trim s := by
  have hstart : trimStart (" " ++ s) = trimStart s := by
    rw [trimStart, String.toList_append]
    exact congrArg String.ofList (dropWhile_cons_of_pos (by decide))
  rw [trim, hstart, trim]

theorem trim_brackets (u : List Char) :
    trim (String.ofList ('(' :: (u ++ [')']))) = String.ofList ('(' :: (u ++ [')'])) := by
  have hend : dropEndWhile isBlank ('(' :: (u ++ [')'])) = '(' :: (u ++ [')']) := by
    rw [dropEndWhile, ← cons_append, reverse_append, reverse_singleton, singleton_append,
      dropWhile_cons_of_neg (by decide)]
    simp
  rw [trim, trimEnd, trimStart, String.toList_ofList, String.toList_ofList,
    dropWhile_cons_of_neg (by decide), hend]

theorem splitOn_comma (hu : ',' ∉ u) (hv : ',' ∉ v) :
    splitOn "," (String.ofList (u ++ ',' :: v)) = [String.ofList u, String.ofList v] := by
  refine (splitOn_char rfl).mpr ⟨by simp, ?_, by simpa using ⟨hu, hv⟩⟩
  rw [← String.toList_inj]
  simp [join]

end Text

namespace Workflow

structure Legible (key : String) : Prop where
  whole : ',' ∉ key.toList
  trimmed : Text.trim key = key

instance (key : String) : Decidable (Legible key) :=
  decidable_of_iff (',' ∉ key.toList ∧ Text.trim key = key) ⟨fun h => ⟨h.1, h.2⟩, fun h =>
    ⟨h.whole, h.trimmed⟩⟩

theorem parsePlace_placeKey (h : Legible key) (k : Int) :
    parsePlace (placeKey k key) = .ok (k + 1, key) := by
  have hcomma : ',' ∉ (toString (k + 1)).toList := fun hc => by
    rcases Text.isDigit_of_mem_toString hc with hc | hc <;> cases hc
  have hkey : placeKey k key = String.ofList
      ('(' :: (((toString (k + 1)).toList ++ ',' :: (" " ++ key).toList) ++ [')'])) := by
    rw [← String.toList_inj, placeKey]
    simp
  have hsplit := Text.splitOn_comma hcomma (v := (" " ++ key).toList) (by simp [h.whole])
  unfold parsePlace
  dsimp only
  rw [hkey, Text.trim_brackets, String.toList_ofList]
  simp only [drop_one, tail_cons, dropLast_concat, hsplit, String.ofList_toList, Text.int?_toString,
    Text.trim_space, h.trimmed]

theorem nodup_moved {α β : Type} {ns : List (α × String × Doc)} {f : α → β}
    (hf : Function.Injective f) (h : (ns.map fun n => (n.1, n.2.1)).Nodup) :
    ((ns.map fun n => (f n.1, n.2)).map fun n => (n.1, n.2.1)).Nodup := by
  rw [map_map]
  refine pairwise_map.mpr ((pairwise_map.mp h).imp fun hne heq => hne ?_)
  obtain ⟨hplace, hkey⟩ := Prod.mk.inj heq
  exact Prod.ext (hf hplace) hkey

section Moving

variable {ns : List (Int × String × Doc)} {a c m n : Int}

def placed (ns : List (Int × String × Doc)) : Entries :=
  ns.map fun n => (.str (placeKey n.1 n.2.1), n.2.2)

def onward (a c k : Int) : Int := if a ≤ k + 1 then k + c else k

theorem onward_injective (hc : 0 ≤ c) : Function.Injective (onward a c) := by
  intro m n h
  unfold onward at h
  split_ifs at h <;> omega

variable (hlegible : ∀ n ∈ ns, Legible n.2.1) (hapart : (ns.map fun n => (n.1, n.2.1)).Nodup)

include hlegible hapart

theorem reindex_placed (hinj : ∀ n ∈ ns, ∀ m ∈ ns, onward a c n.1 = onward a c m.1 → n.1 = m.1) :
    reindex (placed ns) a c = .ok (placed (ns.map fun n => (onward a c n.1, n.2))) := by
  unfold reindex placed
  extract_lets one
  rw [foldlM_map, map_map]
  refine foldlM_put (fun es n hn =>
    ?_) (pairwise_map.mpr ((pairwise_map.mp hapart).imp_of_mem fun {n m} hn hm hne heq => hne ?_))
  · simp only [one, parsePlace_placeKey (hlegible n hn), onward]
    refine congrArg (fun s => Except.ok (put es s n.2.2)) ?_
    split
    · rw [placeKey, Int.add_right_comm]
    · rfl
  · -- what is written can be read, so two keys that are written alike tell the same place
    have hread := parsePlace_placeKey (hlegible n hn) (onward a c n.1)
    rw [heq, parsePlace_placeKey (hlegible m hm)] at hread
    obtain ⟨hplace, hkey⟩ := Prod.mk.inj (Except.ok.inj hread)
    exact Prod.ext (hinj n hn m hm (by simpa using hplace.symm)) hkey.symm

/-- Moving annotations on loses none of them, and moving them twice is moving them once by as much.
-/
theorem reindex_adds_up (hm : 0 ≤ m) (hn : 0 ≤ n) (a : Int) : ∃ moved,
    reindex (placed ns) a n = .ok moved ∧ moved.length = (placed ns).length ∧
    moved = placed (ns.map fun e => (if a ≤ e.1 + 1 then e.1 + n else e.1, e.2)) ∧
    (do reindex (← reindex (placed ns) a m) a n) = reindex (placed ns) a (m + n) := by
  have honce : ∀ c, 0 ≤ c →
      reindex (placed ns) a c = .ok (placed (ns.map fun e => (onward a c e.1, e.2))) :=
    fun c hc => reindex_placed hlegible hapart fun _ _ _ _ h => onward_injective hc h
  refine ⟨_, honce n hn, by simp [placed], rfl, ?_⟩
  have hlegible' : ∀ e ∈ ns.map fun e => (onward a m e.1, e.2), Legible e.2.1 :=
    forall_mem_map.mpr hlegible
  have htwice : ∀ k, onward a n (onward a m k) = onward a (m + n) k := by
    intro k
    unfold onward
    split_ifs <;> omega
  rw [honce m hm, honce (m + n) (by omega)]
  refine (reindex_placed hlegible' (nodup_moved (onward_injective hm) hapart) fun _ _ _ _ h =>
    onward_injective hn h).trans ?_
  rw [map_map]
  simp only [Function.comp_def, htwice]

omit hlegible hapart in
theorem reindex_adds_up_between : ∃ moved,
    reindex (placed [(0, "touch", .null), (1, "cat", .int 1)]) 2 3 = .ok moved ∧ moved.length = 2 ∧
    moved = placed [(0, "touch", .null), (4, "cat", .int 1)] ∧
    (do reindex (← reindex (placed [(0, "touch", .null), (1, "cat", .int 1)]) 2 4) 2 3) =
      reindex (placed [(0, "touch", .null), (1, "cat", .int 1)]) 2 7 :=
  reindex_adds_up (by decide) (by decide) (by decide) (by decide) 2

end Moving

abbrev Notes := List (Nat × String × Doc)

namespace Notes

def entries (ns : Notes) : Entries := ns.map fun n => (.str (placeKey n.1 n.2.1), n.2.2)

theorem entries_cons (n : Nat × String × Doc) (ns : Notes) :
    entries (n :: ns) = (.str (placeKey n.1 n.2.1), n.2.2) :: ns.entries := rfl

structure Sound (ns : Notes) : Prop where
  legible : ∀ n ∈ ns, Legible n.2.1
  apart : (ns.map fun n => (n.1, n.2.1)).Nodup

def shift (i k : Nat) : Nat := if k < i then k else k + 1

def moved (i : Nat) (ns : Notes) : Notes := ns.map fun n => (shift i n.1, n.2)

variable {ns : Notes} {i k : Nat} {key : String} {f : Nat → Nat}

theorem shift_inj (h : shift i k = shift i l) : k = l := by
  unfold shift at h
  split at h <;> split at h <;> omega

theorem shift_ne (i k : Nat) : shift i k ≠ i := by
  unfold shift
  split <;> omega

theorem get?_entries_none (h : ∀ n ∈ ns, n.1 = k → n.2.1 ≠ key) :
    get? ns.entries (placeKey k key) = none := by
  induction ns with
  | nil => rfl
  | cons n ns ih =>
    have hne : placeKey n.1 n.2.1 ≠ placeKey k key := fun heq => by
      obtain ⟨hk, hkey⟩ := placeKey_inj heq
      exact h n mem_cons_self hk hkey
    rw [entries_cons, get?, if_neg hne]
    exact ih fun m hm => h m (mem_cons_of_mem _ hm)

theorem entries_eq_nil (h : Doc.map [] = .map ns.entries) : ns = [] := by
  injection h with h
  exact map_eq_nil_iff.mp h.symm

def relocated (f : Nat → Nat) (ns : Notes) : Notes := ns.map fun n => (f n.1, n.2)

theorem reindex_relocated (h : ns.Sound)
    (hf : ∀ n ∈ ns, (f n.1 : Int) = if (n.1 : Int) + 1 ≥ a then (n.1 : Int) + c else n.1)
    (hinj : ∀ n ∈ ns, ∀ m ∈ ns, f n.1 = f m.1 → n.1 = m.1) :
    reindex ns.entries a c = .ok (ns.relocated f).entries := by
  let whole (ns : Notes) : List (Int × String × Doc) := ns.map fun n => (n.1, n.2)
  have hentries : ∀ ms : Notes, ms.entries = placed (whole ms) :=
    fun ms => by simp [entries, placed, whole]
  have hlegible : ∀ n ∈ whole ns, Legible n.2.1 := forall_mem_map.mpr h.legible
  have hmoved : ∀ n ∈ ns, (f n.1 : Int) = onward a c n.1 := hf
  have hapart : ∀ n ∈ whole ns, ∀ m ∈ whole ns, onward a c n.1 = onward a c m.1 → n.1 = m.1 := by
    refine forall_mem_map.mpr fun n hn => forall_mem_map.mpr fun m hm heq => ?_
    rw [← hmoved n hn, ← hmoved m hm] at heq
    exact congrArg Int.ofNat (hinj n hn m hm (Int.ofNat.inj heq))
  rw [hentries, hentries,
    reindex_placed hlegible (nodup_moved (fun _ _ => Int.ofNat.inj) h.apart) hapart]
  simp only [whole, relocated, map_map]
  exact congrArg (fun ms => Except.ok (placed ms)) (map_congr_left fun n hn =>
    Prod.ext (hmoved n hn).symm rfl)

theorem get?_relocated (hinj : ∀ n ∈ ns, f n.1 = f k → n.1 = k) (key : String) :
    get? (ns.relocated f).entries (placeKey (f k) key) = get? ns.entries (placeKey k key) := by
  induction ns with
  | nil => rfl
  | cons n ns ih =>
    have hiff : placeKey (f n.1) n.2.1 = placeKey (f k) key ↔
        placeKey n.1 n.2.1 = placeKey k key := by
      constructor <;> intro h <;> obtain ⟨hk, hkey⟩ := placeKey_inj h
      · rw [hinj n mem_cons_self hk, hkey]
      · rw [hk, hkey]
    simp only [relocated, entries, map_cons, get?, hiff]
    split
    · rfl
    · exact ih fun m hm => hinj m (mem_cons_of_mem _ hm)

theorem reindex_entries (h : ns.Sound) (i : Nat) :
    reindex ns.entries ((i : Int) + 1) 1 = .ok (ns.moved i).entries := by
  refine reindex_relocated h (fun n _ => ?_) fun n _ m _ => shift_inj
  unfold shift
  split <;> split <;> omega

theorem get?_moved (ns : Notes) (i k : Nat) (key : String) :
    get? (ns.moved i).entries (placeKey (shift i k : Nat) key) = get? ns.entries (placeKey k key) :=
  get?_relocated (fun _ _ => shift_inj) key

theorem put_moved (ns : Notes) (i : Nat) (key : String) (note : Doc) :
    put (ns.moved i).entries (placeKey i key) note = (ns.moved i).entries ++
      [(.str (placeKey i key), note)] := by
  refine put_of_get?_none (get?_entries_none fun n hn hplace => ?_)
  obtain ⟨m, -, rfl⟩ := mem_map.mp hn
  exact absurd hplace (shift_ne i m.1)

theorem getElem?_shift {xs : List Doc} (hi : i ≤ xs.length) (k : Nat) (x : Doc) :
    (xs.take i ++ x :: xs.drop i)[shift i k]? = xs[k]? := by
  have hlen : (xs.take i).length = i := length_take_of_le hi
  unfold shift
  split
  · rename_i hk
    rw [getElem?_append_left (by omega), getElem?_take_of_lt hk]
  · rename_i hk
    rw [getElem?_append_right (by omega), hlen, Nat.sub_add_comm (by omega), getElem?_cons_succ,
      getElem?_drop, Nat.add_sub_cancel' (by omega)]

end Notes

end Workflow

namespace Compile

open Workflow

section Putting

variable {rules es ws inference : Entries} {xs : List Doc} {ns : Notes} {id : StepId}
  {tool : Tool} {i : Nat}

def insertedStep (id : StepId) : Doc := Doc.obj [(id.stem, .null)]

def insertedNote (inference : Entries) : Doc :=
  Doc.obj [("wic", Doc.obj [("inference", .map inference)])]

theorem insertNote_moved (hns : ns.Sound) (hwic : wic.getD (.map []) = .map ws)
    (hnotes : getD ws "steps" (.map []) = .map ns.entries) (key : String) (note : Doc) :
    insertNote i (placeKey i key) note wic =
      .ok
      (.map (put ws "steps" (.map ((ns.moved i).entries ++ [(.str (placeKey i key), note)])))) := by
  cases wic with
  | none =>
    cases hwic
    rw [Notes.entries_eq_nil hnotes]
    rfl
  | some wic =>
    cases hwic
    cases hget : get? ws "steps" with
    | none =>
      rw [getD, hget] at hnotes
      have hhas : (Doc.map ws).holds "steps" = .ok false := by rw [Doc.holds, has, hget]; rfl
      rw [Notes.entries_eq_nil hnotes, insertNote, hhas]
      rfl
    | some v =>
      rw [getD, hget, Option.getD_some] at hnotes
      subst hnotes
      have hhas : (Doc.map ws).holds "steps" = .ok true := by rw [Doc.holds, has, hget]; rfl
      have hfield : (Doc.map ws).field "steps" = .ok (.map ns.entries) := field_eq_ok.mpr hget
      rw [insertNote, hhas, hfield, ← Notes.put_moved]
      change (reindex ns.entries ((i : Int) + 1) 1 >>= _) = _
      rw [Notes.reindex_entries hns]
      rfl

/-- Putting a step in at a place changes nothing but the list of steps and the annotations of the
steps. Every step keeps its annotation at its new place, and the one annotation that is new belongs
to the step that is put in, which has no identifier. -/
theorem insertStep_moves_notes (hsteps : Entries.get? es "steps" = some (.list xs))
    (hi : i ≤ xs.length) (hwic : annotations es = .map ws)
    (hnotes : Entries.getD ws "steps" (.map []) = .map ns.entries) (hns : ns.Sound)
    (htool : insertionRules rules tool = .ok inference) :
    ∃ steps notes, insertStep rules (.map es) id (some tool) i =
        .ok (.map (Entries.put (Entries.put es "steps" (.list steps)) "wic"
          (.map (Entries.put ws "steps" (.map notes))))) ∧
      steps = xs.take i ++ insertedStep id :: xs.drop i ∧
      notes = (ns.moved i).entries ++ [(.str (placeKey i id.stem), insertedNote inference)] ∧
      (∀ k, steps[Notes.shift i k]? = xs[k]? ∧
        ∀ key, Entries.get? notes (placeKey (Notes.shift i k : Nat) key) = Entries.get? ns.entries
        (placeKey k key)) ∧
      requireId "step" (insertedStep id) = .error StepError.noId.failure := by
  refine ⟨_, _, ?_, rfl, rfl, ?_, ?_⟩
  · have hfield : (Doc.map es).field "steps" = .ok (.list xs) := field_eq_ok.mpr hsteps
    have hat : insertAt id i (.list xs) =
        .ok (.list (xs.take i ++ insertedStep id :: xs.drop i)) := by
      simp [insertAt, insertedStep]
    have hkept : Entries.get? (Entries.put es "steps"
        (.list (xs.take i ++ insertedStep id :: xs.drop i))) "wic" = Entries.get? es "wic" :=
      Entries.get?_put_ne (by decide)
    refine Result.bind_eq_ok.mpr ⟨_, hfield, Result.bind_eq_ok.mpr ⟨_, hat, ?_⟩⟩
    refine Result.bind_eq_ok.mpr ⟨tool, rfl, Result.bind_eq_ok.mpr ⟨_, htool, ?_⟩⟩
    refine Result.bind_eq_ok.mpr ⟨es, rfl, Result.bind_eq_ok.mpr ⟨_, ?_, rfl⟩⟩
    rw [hkept]
    exact insertNote_moved hns hwic hnotes _ _
  · intro k
    refine ⟨Notes.getElem?_shift hi k _, fun key => ?_⟩
    have hne : placeKey i id.stem ≠ placeKey (Notes.shift i k : Nat) key := fun h =>
      Notes.shift_ne i k (placeKey_inj h).1.symm
    rw [← Notes.put_moved, Entries.get?_put_ne hne, Notes.get?_moved]
  · rw [insertedStep, Doc.obj, List.map_singleton, requireId, Entries.get?]
    split_ifs <;> rfl

def Sample.annotated : Notes :=
  [(0, "echo", Doc.obj [("label", .str "first")]), (1, "cat", Doc.obj [("label", .str "second")])]

def Sample.annotatedTree : Entries :=
  [(.str "steps", .list [Sample.step "echo" [], Sample.step "cat" []]),
    (.str "wic", .map [(.str "steps", .map Sample.annotated.entries)])]

theorem insertStep_moves_notes_between :
    ∃ steps notes,
      insertStep [] (.map Sample.annotatedTree) Sample.catTool.1 (some Sample.catTool.2) (1 : Nat) =
      .ok (.map (Entries.put (Entries.put Sample.annotatedTree "steps" (.list steps)) "wic"
        (.map (Entries.put [(.str "steps", .map Sample.annotated.entries)]
          "steps" (.map notes))))) ∧
      Entries.get? notes "(3, cat)" = some (Doc.obj [("label", .str "second")]) := by
  obtain ⟨steps, notes, hrun, -, -, hkept, -⟩ :=
    @insertStep_moves_notes [] Sample.annotatedTree _ _ _ Sample.annotated
    Sample.catTool.1 Sample.catTool.2 1 rfl (by decide) rfl rfl
    ⟨by decide +kernel, by decide +kernel⟩ rfl
  exact ⟨steps, notes, hrun, (hkept 1).2 "cat"⟩

end Putting

section Rounds

variable {once : Compiler} {set : Setting} {n : Nat} {t : Task} {r : Compiled}

/-- Rounds of which each but the last comes to another workflow, which the next one compiles; the
last compiles `u` and gives `r`. -/
inductive Rounds (once : Compiler) : Nat → Task → Task → Compiled → Prop
  | last {t : Task} {r : Compiled} (h : (once t).Yields r) : Rounds once 1 t t r
  | more {k : Nat} {t u : Task} {s r : Compiled} (h : (once t).Yields s)
      (hne : (t.yml == s.tree.part.yml) = false)
      (rest : Rounds once k { t with yml := s.tree.part.yml } u r) : Rounds once (k + 1) t u r

theorem rounds_spec (h : (rounds once (n + 1) t).Yields r) :
    ∃ k u, k ≤ n + 1 ∧ Rounds once k t u r ∧ ((u.yml == r.tree.part.yml) ∨ k = n + 1) := by
  induction n generalizing t with
  | zero =>
    obtain ⟨s, hs, h⟩ := h.of_bind
    rw [if_pos (by simp), yields_pure] at h
    exact ⟨1, t, Nat.le_refl _, .last (h ▸ hs), .inr rfl⟩
  | succ n ih =>
    obtain ⟨s, hs, h⟩ := h.of_bind
    cases hsame : t.yml == s.tree.part.yml with
    | true =>
      rw [if_pos (by simp [hsame]), yields_pure] at h
      subst h
      exact ⟨1, t, by omega, .last hs, .inl hsame⟩
    | false =>
      rw [if_neg (by simp [hsame])] at h
      obtain ⟨k, u, hk, hrounds, hend⟩ := ih h
      exact ⟨k + 1, u, by omega, .more hs hsame hrounds, hend.imp id fun hk => by omega⟩

/-- Compiling a workflow anew stops at a round that leaves it as it is, or at the last round
allowed, whatever that one did; it is given up exactly when as many workflows as rounds are allowed
stand around it. -/
theorem compileAt_gives_up {u u' : Transcript}
    (h : (rounds (compileOnce (compileAt set n) set) maxRounds t).outcome u = (.ok r, u')) :
    ((∃ v, (compileAt set (n + 1) t).outcome u = (.error Error.tooManyRounds.failure, v)) ↔
      t.graphs.length = maxRounds + 1) ∧
    ((compileAt set (n + 1) t).outcome u = (.ok r, u') ↔ t.graphs.length ≠ maxRounds + 1) ∧
    ∃ k w, k ≤ maxRounds ∧ Rounds (compileOnce (compileAt set n) set) k t w r ∧
      ((w.yml == r.tree.part.yml) = true ∨ k = maxRounds) := by
  have hgraphs : (compileAt set (n + 1) t).outcome u =
      if t.graphs.length = maxRounds + 1 then
        (.error Error.tooManyRounds.failure,
          ((Logged.print (yamlText r.tree.part.yml)).outcome u').2)
      else (.ok r, u') := by
    rw [compileAt, Logged.outcome_bind, h]
    split <;> rfl
  obtain ⟨k, w, hk, hrounds, hend⟩ := rounds_spec (n := maxRounds - 1) ⟨u, u', h⟩
  refine ⟨?_, ?_, k, w, hk, hrounds, hend⟩
  · rw [hgraphs]
    split <;> simp [*]
  · rw [hgraphs]
    split <;> simp [*]

def Sample.deepTask : Task :=
  { Task.root "wf.wic"
      (Sample.workflow [Sample.step "echo" [("in", Doc.obj [("m", Sample.inline "x")])]])
      (Graph.empty "" "") with
    graphs := replicate (maxRounds + 1) (Graph.empty "" "") }

theorem compileAt_gives_up_deep :
    ∃ v, (compileAt (Sample.setting [Sample.echoTool]) 1 Sample.deepTask).outcome {} =
      (.error Error.tooManyRounds.failure, v) := by
  have hsome : (((rounds
      (compileOnce (compileAt (Sample.setting [Sample.echoTool]) 0)
        (Sample.setting [Sample.echoTool]))
      maxRounds Sample.deepTask).outcome {}).1.toOption).isSome = true := by decide +kernel
  obtain ⟨r, hr⟩ := Option.isSome_iff_exists.mp hsome
  exact (compileAt_gives_up (Prod.ext (Result.toOption_eq_some.mp hr) rfl)).1.mpr rfl

end Rounds

end Compile

end WorkflowInference
