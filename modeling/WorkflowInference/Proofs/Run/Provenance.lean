import WorkflowInference.Run.Outputs
import WorkflowInference.Proofs.Logged

/-!
Every file of a finished run. A file object may stand anywhere in a record; those that are reached
through arrays and listings alone are given, each once and in the order in which they stand.
-/
namespace WorkflowInference.Provenance

open List Entries

mutual

/-- All file objects in a value, each with whether it is reached: no file lies around it, and of a
map that does only the listing, of a directory. -/
def within (dir : String) : Doc → List (OutputFile × Bool)
  | .list xs => withinAll dir xs
  | .map es =>
    let cls := getD es "class" (.str "")
    let text (k : String) : String := (getD es k .null).text
    if cls == .str "File" then
      (⟨text "location", dir, text "basename"⟩, true) :: withinFields dir false es
    else if cls == .str "Directory" then withinFields (dir ++ "/" ++ text "basename") true es
    else withinFields dir false es
  | _ => []

def withinAll (dir : String) : List Doc → List (OutputFile × Bool)
  | [] => []
  | x :: xs => within dir x ++ withinAll dir xs

def withinFields (dir : String) (isOpen : Bool) : List (Doc × Doc) → List (OutputFile × Bool)
  | [] => []
  | (k, v) :: es =>
    let listed := isOpen && k == .str "listing"
    (within dir v).map (fun f => (f.1, listed && f.2)) ++ withinFields dir (isOpen && !listed) es

end

def reached (fs : List (OutputFile × Bool)) : List OutputFile := (fs.filter (·.2)).map (·.1)

theorem reached_append (fs gs : List (OutputFile × Bool)) :
    reached (fs ++ gs) = reached fs ++ reached gs := by
  simp [reached]

theorem reached_under (fs : List (OutputFile × Bool)) (b : Bool) :
    reached (fs.map fun f => (f.1, b && f.2)) = if b then reached fs else [] := by
  cases b <;> simp [reached]

theorem reached_closed (dir : String) (es : Entries) :
    reached (withinFields dir false es) = [] := by
  induction es with
  | nil => rw [withinFields]; rfl
  | cons e es ih =>
    rw [withinFields, reached_append, reached_under]
    exact ih

mutual

theorem files_reached : ∀ {d : Doc}, files dir d = .ok fs → fs = reached (within dir d)
  | .list xs, h => by
    rw [files] at h
    rw [within]
    exact filesOf_reached h
  | .map es, h => by
    rw [files] at h
    rw [within]
    dsimp only at h ⊢
    split at h
    · rename_i hfile
      rw [if_pos hfile]
      split at h
      · rename_i l b hl hb
        cases h
        rw [Entries.getD, hl, Entries.getD, hb]
        exact congrArg (_ :: ·) (reached_closed dir es).symm
      · cases h
    rename_i hfile
    rw [if_neg hfile]
    split at h
    · rename_i hdir
      rw [if_pos hdir]
      split at h
      · rename_i b hb
        rw [Entries.getD, hb]
        exact listing_reached h
      · cases h
      · cases h
    · rename_i hdir
      cases h
      rw [if_neg hdir, reached_closed]
  | .null, h | .bool _, h | .int _, h | .float _, h | .str _, h | .bytes _, h | .date _, h
  | .path _, h | .qual .., h
  | .tuple _, h | .set _, h | .object .., h => by cases h; rfl

theorem filesOf_reached : ∀ {xs}, filesOf dir xs = .ok fs → fs = reached (withinAll dir xs)
  | [], h => by cases h; rfl
  | x :: xs, h => by
    rw [filesOf] at h
    split at h
    · rename_i a b ha hb
      cases h
      rw [withinAll, reached_append, ← files_reached ha, ← filesOf_reached hb]
    · cases h
    · cases h

theorem listing_reached : ∀ {es}, listing dir es = .ok fs → fs = reached (withinFields dir true es)
  | [], h => by cases h
  | (k, v) :: es, h => by
    rw [listing] at h
    rw [withinFields, reached_append, reached_under]
    split at h
    · rename_i hk
      simp [hk, reached_closed, files_reached h]
    · rename_i hk
      simp [hk, listing_reached h]

end

/-- The files of a run are those reached in its record, and all that are in it if none is out of
reach. -/
theorem outputFiles_reached {record : Entries} {fs : List OutputFile}
    (h : outputFiles (.map record) = .ok fs) :
    fs = reached (record.flatMap fun e => within e.1.text e.2) ∧
      ((∀ e ∈ record, ∀ f ∈ within e.1.text e.2, f.2 = true) →
        fs = (record.flatMap fun e => within e.1.text e.2).map (·.1)) := by
  obtain ⟨fss, hfss, rfl⟩ := Result.of_map h
  have hall : fss.flatten = reached (record.flatMap fun e => within e.1.text e.2) := by
    have hchain := Result.mapM_eq_ok hfss
    clear h hfss
    induction hchain with
    | nil => rfl
    | cons hfs _ ih => rw [flatten_cons, ih, flatMap_cons, reached_append, files_reached hfs]
  refine ⟨hall, fun hreach => ?_⟩
  rw [hall, reached, filter_eq_self.mpr]
  intro f hf
  obtain ⟨e, he, hf⟩ := mem_flatMap.mp hf
  exact hreach e he f hf

def nested : Entries :=
  let file (name : String) (more : List (String × Doc)) : Doc :=
    Doc.obj ([("class", .str "File"), ("location", .str ("/" ++ name)),
      ("basename", .str name)] ++ more)
  [(.str "o", Doc.obj [("class", .str "Directory"), ("basename", .str "d"),
    ("listing", .list [file "a" [("secondaryFiles", .list [file "b" []])], file "c" []])])]

theorem outputFiles_reached_nested :
    ∃ fs, outputFiles (.map nested) = .ok fs ∧ fs = [⟨"/a", "o/d", "a"⟩, ⟨"/c", "o/d", "c"⟩] ∧
      fs = reached (nested.flatMap fun e => within e.1.text e.2) := by
  have h : outputFiles (.map nested) = .ok [⟨"/a", "o/d", "a"⟩, ⟨"/c", "o/d", "c"⟩] := by
    decide +kernel
  exact ⟨_, h, rfl, (outputFiles_reached h).1⟩

end WorkflowInference.Provenance
