import WorkflowInference.Assembly.Run
import WorkflowInference.Program
import WorkflowInference.Proofs.Entries
import WorkflowInference.Proofs.Logged

/-!
Which files a runner finds. A compiled workflow is written before its images are fetched and the
runner is started, and nothing that is done in between writes documents: the runner finds what was
written, whatever has become of the workflow since.
-/
namespace WorkflowInference

open Logged List

abbrev Effect (σ : Type) := ExceptT Failure (StateM σ)

section Leads

variable {σ α β : Type} {I J K : σ → Prop} {x : Effect σ α} {f : α → Effect σ β}

theorem after_bind {P : σ → Prop} (herror : ∀ e t, x.run.run s = (.error e, t) → P t)
    (hok : ∀ a t, x.run.run s = (.ok a, t) → P ((f a).run.run t).2) :
    P ((x >>= f).run.run s).2 := by
  change P ((ExceptT.bindCont f (x.run.run s).1).run (x.run.run s).2).2
  rcases hx : x.run.run s with ⟨e | a, t⟩
  · exact herror e t hx
  · exact hok a t hx

/-- From where the one holds a computation leads to where the other does, however it ends. -/
def Leads (I J : σ → Prop) (x : Effect σ α) : Prop := ∀ s, I s → J (x.run.run s).2

abbrev Stays (I : σ → Prop) (x : Effect σ α) : Prop := Leads I I x

theorem Leads.bind (hx : Leads I K x)
    (hf : ∀ a, Leads K J (f a)) (hKJ : ∀ s, K s → J s) : Leads I J (x >>= f) := fun s hs =>
  after_bind (fun e t ht => hKJ t (by have := hx s hs; rwa [ht] at this))
    fun a t ht => hf a t (by have := hx s hs; rwa [ht] at this)

theorem Leads.ite [Decidable b] (hx : Leads I J x) (hy : Leads I J y) :
    Leads I J (if b then x else y) := by
  split
  · exact hx
  · exact hy

theorem Leads.attempt {I J : Session → Prop} {x : Act α} (hx : Leads I J x) :
    Leads I J (Act.attempt x) := by
  intro s hs
  have hleft : J (Act.outcome x s).2 := hx s hs
  change J (Act.attempt x s).2
  unfold Act.attempt
  split
  all_goals
    rename_i heq
    rwa [heq] at hleft

namespace Stays

theorem pure (a : α) : Stays I (pure a) := fun _ h => h

theorem throw (e : Failure) : Stays I (throw e : Effect σ α) := fun _ h => h

theorem get : Stays I (MonadState.get : Effect σ σ) := fun _ h => h

theorem bind {f : α → Effect σ β} (hx : Stays I x) (hf : ∀ a, Stays I (f a)) : Stays I (x >>= f) :=
  Leads.bind hx hf fun _ => id

theorem ite [Decidable b] (hx : Stays I x) (hy : Stays I y) : Stays I (if b then x else y) :=
  Leads.ite hx hy

theorem forM {f : α → Effect σ Unit} (l : List α) (hf : ∀ a ∈ l, Stays I (f a)) :
    Stays I (l.forM f) := by
  induction l with
  | nil => exact pure _
  | cons a l ih =>
    exact (hf a mem_cons_self).bind fun _ => ih fun b hb => hf b (mem_cons_of_mem a hb)

theorem foldlM {f : β → α → Effect σ β} (l : List α) (hf : ∀ b a, Stays I (f b a)) (b : β) :
    Stays I (l.foldlM f b) := by
  induction l generalizing b with
  | nil => exact pure b
  | cons a l ih =>
    rw [foldlM_cons]
    exact (hf b a).bind fun c => ih c

theorem forIn {f : α → β → Effect σ (ForInStep β)} (l : List α) (hf : ∀ a b, Stays I (f a b))
    (b : β) : Stays I (forIn l b f) := by
  induction l generalizing b with
  | nil => exact pure b
  | cons a l ih =>
    rw [forIn_cons]
    refine (hf a b).bind fun r => ?_
    cases r with
    | done c => exact pure c
    | yield c => exact ih c

theorem lift (r : Result α) {I : Session → Prop} : Stays I (liftM r : Act α) := by
  cases r with
  | error e => exact throw e
  | ok a => exact pure a

theorem liftLogged (r : Result α) {I : Transcript → Prop} : Stays I (liftM r : Logged α) := by
  cases r with
  | error e => exact throw e
  | ok a => exact pure a

theorem files {I : Session → Prop} : Stays I Act.files := fun _ h => h

theorem readFile {I : Session → Prop} (p : String) : Stays I (Act.readFile p) := by
  refine bind files fun fs => ?_
  split
  · exact pure _
  · exact bind files fun _ => ite (throw _) (throw _)

end Stays

end Leads

def Logged.Unwritten {α : Type} (x : Logged α) : Prop :=
  ∀ ws, Stays (fun t : Transcript => t.written = ws) x

theorem Logged.unwritten_print (line : String) : (print line).Unwritten := fun _ _ h => h

theorem Run.Environment.unwritten_clean (vars : Doc) : (clean vars).Unwritten := by
  refine fun ws => .bind (.liftLogged _) fun es => .foldlM es (fun acc e => ?_) []
  split
  · refine .ite ?_ (.bind (unwritten_print _ ws) fun _ => .pure _)
    split
    · exact .pure _
    · exact .throw _
  · exact .throw _

theorem Compile.unwritten_withoutEntrypoint (tool : Doc) : (withoutEntrypoint tool).Unwritten := by
  refine fun ws => .bind (.liftLogged _) fun image =>
    .bind (.ite (unwritten_print _ ws) (.pure _)) fun _ => ?_
  split
  · exact .bind (.liftLogged _) fun _ =>
      .ite (.bind (unwritten_print _ ws) fun _ => .liftLogged _) (.pure _)
  · exact .bind (.liftLogged _) fun _ => .ite (.throw _) (.ite (.throw _) (.pure _))

namespace Compile.PartTree

mutual

theorem unwritten_mapCwl {f : Part → Logged Doc} (hf : ∀ p, (f p).Unwritten) :
    ∀ t, (mapCwl f t).Unwritten
  | .node p ts =>
    fun ws => .bind (hf p ws) fun _ => .bind (unwritten_mapCwlAll hf ts ws) fun _ => .pure _

theorem unwritten_mapCwlAll {f : Part → Logged Doc} (hf : ∀ p, (f p).Unwritten) :
    ∀ ts, (mapCwlAll f ts).Unwritten
  | [] => fun _ => .pure _
  | t :: ts =>
    fun ws => .bind (unwritten_mapCwl hf t ws) fun _ =>
      .bind (unwritten_mapCwlAll hf ts ws) fun _ => .pure _

end

theorem unwritten_withoutEntrypoints (tree : PartTree) : tree.withoutEntrypoints.Unwritten :=
  unwritten_mapCwl (fun p => unwritten_withoutEntrypoint p.cwl) tree

end Compile.PartTree

namespace CommandLine

theorem unwritten_set (r : Reading) (ss : List Switch) (s : Switch) (texts : List String) :
    (r.set ss s texts).Unwritten := by
  intro ws
  refine .bind (.liftLogged _) fun value => ?_
  extract_lets set rest
  have hrest : ∀ u, Stays (fun t : Transcript => t.written = ws) (rest u) := by
    intro _
    dsimp only [rest]
    split
    · exact .bind (unwritten_print _ ws) fun _ => .bind (.throw _) fun _ => .pure _
    · exact .pure _
  exact .ite (.bind (.throw _) hrest) (hrest ())

theorem unwritten_consume (p : Program) (r : Reading) (words : List (String × Word)) :
    (consume p r words).Unwritten := by
  intro ws
  fun_induction consume p r words with
  | case1 => exact .pure _
  | case2 | case3 | case4 => assumption
  | case5 => exact .ite (.bind (unwritten_print _ ws) fun _ => .throw _) (.throw _)
  | case6 _ _ _ _ _ ih => exact .bind (.liftLogged _) fun _ => .bind (unwritten_set _ _ _ _ ws) ih
  | case7 _ _ _ _ ih => exact .bind (.liftLogged _) fun n => .bind (unwritten_set _ _ _ _ ws) (ih n)

theorem unwritten_readKnown (p : Program) (words : List String) : (readKnown p words).Unwritten :=
  fun ws =>
  .bind (.liftLogged _) fun _ => .bind (unwritten_consume _ _ _ ws) fun _ =>
    .ite (.bind (.throw _) fun _ => .pure _) (.pure _)

end CommandLine

def Outcome.writes : Outcome → List (String × String)
  | .ended _ _ _ _ ws => ws
  | _ => []

def Files.writeAll (fs : Files) (ws : List (String × String)) : Files :=
  ws.foldl (fun fs w => fs.write w.1 w.2) fs

namespace Run

def isCwl (q : String) : Bool := Text.endsWith q ".cwl"

def SameCwl (f g : Files) : Prop := ∀ q, isCwl q → f.texts.lookup q = g.texts.lookup q

def isRunner : Doc → Bool
  | .list (.str m :: _ :: _ :: _) => m == "cwltool.main" || m == "toil.main"
  | _ => false

variable {f g : Files}

theorem SameCwl.trans (hfg : SameCwl f g) (hgh : SameCwl g h) : SameCwl f h :=
  fun q hq => (hfg q hq).trans (hgh q hq)

theorem sameCwl_write (hp : isCwl (f.place p) = false) : SameCwl (f.write p text) f := by
  intro q hq
  rw [Files.write, Keyed.lookup_put, if_neg]
  rintro rfl
  rw [hp] at hq
  cases hq

theorem cwd_writeAll (fs : Files) (ws : List (String × String)) :
    (fs.writeAll ws).cwd = fs.cwd := by
  induction ws generalizing fs with
  | nil => rfl
  | cons w ws ih => exact ih (fs.write w.1 w.2)

theorem sameCwl_writeAll (hws : ∀ w ∈ ws, isCwl (Path.resolve fs.cwd w.1) = false) :
    SameCwl (fs.writeAll ws) fs := by
  induction ws generalizing fs with
  | nil => exact fun _ _ => rfl
  | cons w ws ih =>
    have hrest : SameCwl ((fs.write w.1 w.2).writeAll ws) (fs.write w.1 w.2) :=
      ih fun v hv => hws v (mem_cons_of_mem w hv)
    exact hrest.trans (sameCwl_write (hws w mem_cons_self))

theorem makeFolder_frame (fs : Files) (p : String) :
    (fs.makeFolder p).texts = fs.texts ∧ (fs.makeFolder p).cwd = fs.cwd := by
  unfold Files.makeFolder
  generalize fs.ways p = qs
  induction qs generalizing fs with
  | nil => exact ⟨rfl, rfl⟩
  | cons q qs ih =>
    rw [foldl_cons]
    split
    · exact ih fs
    · exact ih { fs with folders := fs.folders ++ [q] }

structure Target where
  tree : Compile.PartTree
  base : String
  inputs : String
  cwd : String

def Found (w : Target) (f : Files) : Prop :=
  ∃ t u, t.files.cwd = w.cwd ∧ (writeTree w.tree w.base w.inputs).outcome t = (.ok (), u) ∧
    SameCwl f u.files

theorem Found.of_sameCwl (h : Found w g) (hfg : SameCwl f g) : Found w f := by
  obtain ⟨t, u, hcwd, hout, hg⟩ := h
  exact ⟨t, u, hcwd, hout, hfg.trans hg⟩

/-- A session in which no program that is still to come writes documents and whose runners have
found the documents of the workflow; they are there, if `held`. -/
structure Guarded (w : Target) (held : Bool) (s : Session) : Prop where
  cwd : s.files.cwd = w.cwd
  log : s.log.written = []
  calm : ∀ o ∈ s.outcomes, ∀ v ∈ o.writes, isCwl (Path.resolve w.cwd v.1) = false
  files : held → Found w s.files
  runs : ∀ x ∈ s.started, isRunner x.command → Found w x.files

section Steps

variable {w : Target} {held : Bool} {s t : Session} {α β : Type} {x : Act α} {command env : Doc}
  {source dest name engine path stem : String} {settings : Entries} {tree : Compile.PartTree}
  {c : Program.Call}

theorem Guarded.release (h : Guarded w held s) : Guarded w false s :=
  ⟨h.cwd, h.log, h.calm, nofun, h.runs⟩

theorem Guarded.of_files (h : Guarded w held s) (hcwd : t.files.cwd = w.cwd)
    (hlog : t.log.written = []) (hfiles : held → SameCwl t.files s.files)
    (hcalm : t.outcomes = s.outcomes) (hruns : t.started = s.started) : Guarded w held t :=
  ⟨hcwd, hlog, hcalm ▸ h.calm, fun hheld => (h.files hheld).of_sameCwl (hfiles hheld),
    hruns ▸ h.runs⟩

theorem stays_print (line : String) : Stays (Guarded w held) (Act.print line) := fun _ h =>
  h.of_files h.cwd h.log (fun _ _ _ => rfl) rfl rfl

theorem stays_makeFolders (p : String) : Stays (Guarded w held) (Act.makeFolders p) := by
  refine .bind .files fun fs => .ite (.throw _) fun s h => ?_
  obtain ⟨htexts, hcwd⟩ := makeFolder_frame s.files p
  change Guarded w held { s with files := s.files.makeFolder p }
  exact h.of_files (hcwd.trans h.cwd) h.log (fun _ q _ => congrArg (lookup q) htexts) rfl rfl

theorem stays_writeFile (hp : held → isCwl (Path.resolve w.cwd p) = false) :
    Stays (Guarded w held) (Act.writeFile p text) := by
  refine .bind .files fun fs => .ite (.throw _) (.ite (.throw _) fun s h => ?_)
  refine h.of_files h.cwd h.log (fun hheld => sameCwl_write ?_) rfl rfl
  rw [Files.place, h.cwd]
  exact hp hheld

theorem stays_ofLogged {x : Logged α} (hx : held → x.Unwritten) :
    Stays (Guarded w held) (Act.ofLogged x) := by
  intro s h
  refine h.of_files ((cwd_writeAll _ _).trans h.cwd) rfl (fun hheld => ?_) rfl rfl
  have hsilent : (x s.log).2.written = [] := hx hheld [] s.log h.log
  change SameCwl (s.files.writeAll (x s.log).2.written.reverse) s.files
  rw [hsilent]
  exact fun _ _ => rfl

theorem leads_lendEnv (hx : Leads (Guarded w held) (Guarded w held') x) :
    Leads (Guarded w held) (Guarded w held') (Act.lendEnv vars x) := by
  intro s h
  have hinside := hx _ (h.of_files (t := { s with env := Keyed.update s.env vars }) h.cwd h.log
    (fun _ _ _ => rfl) rfl rfl)
  exact hinside.of_files hinside.cwd hinside.log (fun _ _ _ => rfl) rfl rfl

theorem start_cons (h : s.outcomes = o :: os) : ((Act.start command).outcome s).2 = { s with
      started := s.started ++ [⟨command, s.watched.map fun n => (n, s.env.lookup n), s.files⟩],
      outcomes := os
      files := s.files.writeAll o.writes } := by
  obtain ⟨_, _, _, _, outcomes⟩ := s
  cases h
  cases o <;> rfl

theorem stays_start (hrun : isRunner command → held) :
    Stays (Guarded w held) (Act.start command) := by
  intro s h
  change Guarded w held ((Act.start command).outcome s).2
  cases hout : s.outcomes with
  | nil =>
    obtain ⟨_, _, _, _, outcomes⟩ := s
    cases hout
    exact h
  | cons o os =>
    have hcalm : ∀ w ∈ o.writes, isCwl (Path.resolve s.files.cwd w.1) = false := by
      rw [h.cwd]
      exact h.calm o (hout ▸ mem_cons_self)
    rw [start_cons hout]
    refine ⟨(cwd_writeAll _ _).trans h.cwd, h.log, fun o' ho' =>
      h.calm o' (hout ▸ mem_cons_of_mem o ho'),
      fun hheld => (h.files hheld).of_sameCwl (sameCwl_writeAll hcalm), fun x hx hrunner => ?_⟩
    rcases mem_append.mp hx with hx | hx
    · exact h.runs x hx hrunner
    · rw [mem_singleton.mp hx] at hrunner ⊢
      exact h.files (hrun hrunner)

theorem stays_run (hrun : isRunner command → held) :
    Stays (Guarded w held) (Act.run command) := .bind (stays_start hrun) fun _ => .lift _

theorem stays_give (lines : List String) : Stays (Guarded w held) (Container.give lines : Act α) :=
  .bind (.forM lines fun line _ => stays_print line) fun _ => .throw _

theorem stays_tryRun (hrun : isRunner command → held) :
    Stays (Guarded w held) (Container.tryRun command) := by
  refine .bind (stays_start hrun) fun o => ?_
  split
  · exact .pure _
  · exact .bind (.lift _) fun _ => .pure _

theorem stays_check (engine : String) (ignored : Bool) :
    Stays (Guarded w held) (Container.check engine ignored) := by
  unfold Container.check
  split
  · rename_i hengine
    -- only the names that were tested for are left, and neither is that of a runner
    have hnot : isRunner (Doc.strs [engine, "run", "--rm", "hello-world"]) → held := by
      simp only [Bool.or_eq_true, decide_eq_true_eq] at hengine
      rcases hengine with rfl | rfl <;> exact nofun
    refine .bind (stays_tryRun hnot) fun test => ?_
    extract_lets output rest
    have hrest : ∀ u, Stays (Guarded w held) (rest u) := by
      intro u
      refine .ite (.bind (stays_run nofun) fun r => ?_) (.pure _)
      dsimp only
      split
      · exact .ite (stays_give _) (.pure _)
      · exact .throw _
    have hrefuse :
        Stays (Guarded w held) (Container.give (Container.notInstalled engine) >>= rest) :=
      .bind (stays_give _) hrest
    exact .ite (.ite (.bind (stays_give _) fun _ => hrefuse) hrefuse) (hrest ())
  · refine .bind (stays_tryRun nofun) fun test => ?_
    exact .ite (stays_give _) (.pure _)

theorem stays_extract (engine pullDir cwl : String) :
    Stays (Guarded w held) (Container.extract engine pullDir cwl) := by
  refine .bind (stays_run ?_) fun r => .ite (.throw _) (.pure _)
  split <;> exact nofun

theorem stays_buildAll (engine : String) : Stays (Guarded w held) (Container.buildAll engine) := by
  refine .bind .get fun s => ?_
  split
  · exact .ite (fun s h => h.of_files h.cwd h.log (fun _ _ _ => rfl) rfl rfl)
      (.ite (.throw _) (.pure _))
  · exact .throw _

theorem stays_copyInto
    (hdest : held → isCwl (Path.resolve w.cwd dest) = false ∧
      isCwl (Path.resolve w.cwd (Path.join dest (Path.name source))) = false) :
    Stays (Guarded w held) (copyInto source dest) := by
  refine .bind .files fun fs => .bind (.readFile source) fun text => stays_writeFile fun hheld => ?_
  split
  · exact (hdest hheld).2
  · exact (hdest hheld).1

def StagesNoCwl (cwd : String) (inputs : Entries) (source dest : String) : Prop :=
  ∀ e ∈ inputs, ∀ location, fileLocation? e.2 = some (.str location) →
    isCwl (Path.resolve cwd (Path.join dest location)) = false ∧ isCwl (Path.resolve cwd
    (Path.join (Path.join dest location) (Path.name (Path.join source location)))) = false

theorem stays_stage (h : StagesNoCwl w.cwd inputs source dest) :
    Stays (Guarded w held) (stage inputs source dest strict) := by
  refine .forM inputs fun e he => ?_
  dsimp only
  split
  · exact .pure _
  · rename_i location hlocation
    have hrest : Stays (Guarded w held) (do
        Act.makeFolders (Path.parent (Path.join dest location))
        let fs ← Act.files
        if fs.place (Path.join source location) != fs.place (Path.join dest location) then
          copyInto (Path.join source location) (Path.join dest location)) :=
      .bind (stays_makeFolders _) fun _ => .bind .files fun _ =>
        .ite (stays_copyInto fun _ => h e he location hlocation) (.pure _)
    exact .bind .files fun fs =>
      .ite (.bind (stays_print _) fun _ => .bind (.throw _) fun _ => hrest) hrest
  · exact .throw _

theorem stays_copy (source dest : String) : Stays (Guarded w false) (Outputs.copy source dest) := by
  refine .bind .files fun fs => ?_
  dsimp only
  split
  · exact .throw _
  · exact .ite (stays_writeFile nofun) (.throw _)

theorem stays_collect (stem base : String) :
    Stays (Guarded w false) (Outputs.collect stem base) := by
  refine .bind .files fun fs => .ite (.bind (.readFile _) fun text => ?_) (.pure _)
  split
  · refine .bind (.lift _) fun outputs =>
      .bind (.foldlM outputs (fun seen f => ?_) []) fun _ => .pure _
    exact .bind (stays_makeFolders _) fun _ => .bind .files fun _ =>
      .bind (stays_copy _ _) fun _ => .pure _
  · exact .throw _

theorem stays_reportFailure (job : Job) (quiet : Bool) (e : Failure) :
    Stays (Guarded w false) (reportFailure job quiet e) := by
  unfold reportFailure
  extract_lets file told rest
  have hrest : ∀ u, Stays (Guarded w false) (rest u) := by
    refine fun _ => .bind (stays_print _) fun _ => .bind (stays_print _) fun _ =>
      .bind (stays_writeFile nofun) fun _ => ?_
    exact .ite (.bind (stays_print _) fun _ => .pure _) (.pure _)
  split
  · exact .bind (.throw _) hrest
  · exact hrest ()

theorem stays_clearCache (cache : String) : Stays (Guarded w false) (clearCache cache) := by
  unfold clearCache
  refine .ite (.pure _) (.bind .files fun fs => .bind (.forIn _ (fun d _ => ?_) _) fun _ => .pure _)
  refine .ite (.bind .files fun gs =>
    .ite (.bind (fun s h => ?_) fun _ => .pure _) (.bind (.throw _) fun _ => .pure _)) (.pure _)
  exact h.of_files h.cwd h.log nofun rfl rfl

abbrev Frees (w : Target) (x : Act α) : Prop := Leads (Guarded w true) (Guarded w false) x

theorem frees_bind {f : α → Act β} (hx : Stays (Guarded w true) x) (hf : ∀ a, Frees w (f a)) :
    Frees w (x >>= f) := Leads.bind hx hf fun _ => Guarded.release

theorem frees_of_keeps (hx : Stays (Guarded w false) x) : Frees w x := fun s h => hx s h.release

theorem leads_files {J : Session → Prop} {f : Files → Act β}
    (hf : ∀ fs : Files, fs.cwd = w.cwd → Leads (Guarded w held) J (f fs)) :
    Leads (Guarded w held) J (Act.files >>= f) := fun s h => hf s.files h.cwd s h

theorem frees_withEnv (hx : Frees w x) : Frees w (Act.withEnv vars x) :=
  .ite (frees_of_keeps (.bind (fun _ h => h.of_files h.cwd h.log (fun _ _ _ => rfl) rfl rfl)
    fun _ => .throw _)) (leads_lendEnv hx)

theorem frees_runInside {job : Job} {command : List String} :
    Frees w (runInside job settings command) := by
  unfold runInside
  refine .ite
    (frees_bind (stays_print _) fun _ =>
      frees_bind (stays_run fun _ => rfl) fun r => frees_of_keeps ?_)
    (.ite
      (frees_bind (stays_print _) fun _ =>
        frees_bind (stays_run fun _ => rfl) fun r => frees_of_keeps (.pure _))
      (frees_of_keeps (.throw _)))
  exact .bind (stays_print _) fun _ => .ite (.bind (stays_collect _ _) fun _ => .pure _) (.pure _)

theorem frees_runLocal {separate : Bool} {more : List String} {base : String} :
    Frees w (runLocal settings separate more name base env) := by
  have hclean : ∀ e, Stays (Guarded w true) (Act.ofLogged (Environment.clean e)) := fun e =>
    stays_ofLogged fun _ => Environment.unwritten_clean e
  refine frees_bind (.lift _) fun runner => ?_
  extract_lets cache
  refine frees_bind (.lift _) fun engine => frees_bind .get fun s =>
    frees_bind (hclean _) fun vars => ?_
  extract_lets rest
  have hrest : ∀ status, Stays (Guarded w false) (rest status) := fun _ =>
    .ite (.bind (stays_print _) fun _ => .bind (stays_clearCache _) fun _ => .pure _)
      (.bind (stays_print _) fun _ => .bind (stays_print _) fun _ =>
        .bind (stays_clearCache _) fun _ => .pure _)
  refine .ite (frees_of_keeps (.bind (stays_writeFile nofun) fun _ => .pure _))
    (frees_bind (stays_print _) fun _ => .ite ?_ ?_)
  · exact frees_bind (leads_lendEnv (stays_run fun _ => rfl)) fun _ => frees_of_keeps (.pure _)
  · -- the documents are needed up to the start of the runner, and not by what follows on its end
    refine Leads.bind (Leads.attempt (frees_bind (hclean _) fun _ => frees_withEnv frees_runInside))
      (fun r => ?_) fun _ => id
    cases r with
    | ok status => exact Stays.bind (.pure status) hrest
    | error e => exact Stays.bind (stays_reportFailure _ _ e) hrest

theorem stays_writeTree (tree : Compile.PartTree) (base inputs : String) :
    Stays (Guarded w false) (writeTree tree base inputs) := by
  unfold writeTree
  extract_lets rest
  have hrest : ∀ more, Stays (Guarded w false) (rest more) := fun _ => stays_ofLogged nofun
  exact .ite (.bind (.pure _) hrest) (.bind (.readFile _) fun _ => .bind (.lift _) fun _ =>
    .bind (.lift _) hrest)

theorem stays_writeTree_bind {f : Unit → Act β} (hf : Frees w (f ())) :
    Stays (Guarded w false) (writeTree w.tree w.base w.inputs >>= f) := by
  intro s h
  have ht := stays_writeTree w.tree w.base w.inputs s h
  refine after_bind (fun e t hout => by rwa [hout] at ht) fun _ t hout => ?_
  rw [hout] at ht
  exact hf t ⟨ht.cwd, ht.log, ht.calm, fun _ => ⟨s, t, h.cwd, hout, fun _ _ => rfl⟩, ht.runs⟩

theorem jobInputs_withoutEntrypoints (h : tree.withoutEntrypoints.Yields u) :
    u.part.jobInputs = tree.part.jobInputs := by
  obtain ⟨p, ts⟩ := tree
  obtain ⟨d, -, us, -, h⟩ := h.of_bind₂
  rw [← yields_pure.mp h]
  rfl

theorem frees_removeEntrypoints {f : Compile.PartTree → Act β}
    (hf : ∀ u : Compile.PartTree, u.part.jobInputs = tree.part.jobInputs → Frees w (f u)) :
    Frees w (Container.removeEntrypoints engine tree >>= f) := by
  have hlast : Frees w (Act.ofLogged tree.withoutEntrypoints >>= f) := by
    intro s h
    have ht := stays_ofLogged (fun _ => tree.unwritten_withoutEntrypoints) s h
    refine after_bind (fun e t hout => ?_) fun u t hout => ?_
    · rw [hout] at ht
      exact ht.release
    · rw [hout] at ht
      have hvalue := congrArg Prod.fst hout
      exact hf u (jobInputs_withoutEntrypoints ⟨s.log, (tree.withoutEntrypoints.outcome s.log).2,
        Prod.ext hvalue rfl⟩) t ht
  unfold Container.removeEntrypoints
  split
  · rw [bind_assoc]
    exact frees_bind (stays_buildAll engine) fun _ => hlast
  · exact hlast

theorem stays_finish (c : Program.Call) (tree : Compile.PartTree) :
    Stays (Guarded w false) (Program.finish c tree) := by
  refine .bind (stays_ofLogged nofun) fun u => ?_
  extract_lets rest
  have hrest : ∀ v, Stays (Guarded w false) (rest v) := fun _ => .ite (.lift _) (.pure _)
  split
  · split
    · exact .bind (stays_ofLogged nofun) hrest
    · exact .bind (.pure _) hrest
  · exact .bind (.pure _) hrest

theorem stays_draw (c : Program.Call) (path stem : String) (g : Graph) :
    Stays (Guarded w false) (Program.draw c path stem g) := by
  refine .bind .get fun s =>
    .ite ?_ (.bind (stays_print _) fun _ => .bind (stays_print _) fun _ => stays_print _)
  exact .bind (stays_makeFolders _) fun _ => .bind (stays_writeFile nofun) fun _ =>
    .bind (stays_run nofun) fun _ =>
    .bind (stays_run nofun) fun _ => .pure _

theorem stays_runOf (hbase : w.base = "autogenerated") (hinputs : w.inputs = c.text "inputs_file")
    (hstages : StagesNoCwl w.cwd w.tree.part.jobInputs
      (Path.absolute w.cwd (Path.parent path)) w.base) :
    Stays (Guarded w false) (Program.run c path stem w.tree) := by
  unfold Program.run
  rw [← hbase, ← hinputs]
  refine .bind (stays_check _ _) fun _ =>
    stays_writeTree_bind (frees_bind (stays_extract _ _ _) fun _ => ?_)
  extract_lets yes same settings rest
  have hrest : ∀ u : Compile.PartTree, u.part.jobInputs = w.tree.part.jobInputs →
      Frees w (rest u) := by
    intro u hu
    refine leads_files fun fs hcwd => frees_bind (stays_stage ?_) fun _ =>
      Leads.bind frees_runLocal (fun _ => Stays.pure _) fun _ => id
    rw [hu, hcwd]
    exact hstages
  rw [pure_bind]
  exact .ite (frees_removeEntrypoints hrest) (hrest w.tree rfl)

theorem stays_deliver (hinputs : w.inputs = (Entries.getD settings "inputs_file" (.str "")).text) :
    Stays (Guarded w false) (Assembly.Assemble.deliver settings name engine w.base env w.tree) := by
  unfold Assembly.Assemble.deliver
  rw [← hinputs]
  refine .bind (stays_check _ _) fun _ =>
    stays_writeTree_bind (frees_bind (stays_extract _ _ _) fun _ => ?_)
  extract_lets rest
  have hrest : ∀ u, Frees w (rest u) := by
    refine fun _ =>
      frees_bind (.bind .get fun _ => .bind (stays_ofLogged fun _ => ?_) fun _ => .pure _) fun _ =>
      Leads.bind frees_runLocal (fun _ => Stays.pure _) fun _ => id
    exact CommandLine.unwritten_readKnown _ _
  exact .ite (frees_removeEntrypoints fun _ _ => hrest ()) (hrest ())

theorem Guarded.deliver {g : Graph} (h : Guarded w false s) (hbase : w.base = "autogenerated")
    (hinputs : w.inputs = c.text "inputs_file")
    (hstages : StagesNoCwl w.cwd w.tree.part.jobInputs
      (Path.absolute w.cwd (Path.parent path)) w.base)
    (hfinal : (Program.finish c tree).outcome s = (.ok w.tree, t)) :
    Guarded w false ((Program.deliver c path stem tree g).outcome s).2 := by
  have hfinished := stays_finish c tree s h
  change Guarded w false ((Program.finish c tree).outcome s).2 at hfinished
  rw [hfinal] at hfinished
  refine after_bind (fun e u hout => ?_) fun v u hout => ?_
  · cases hfinal.symm.trans hout
  · cases hfinal.symm.trans hout
    extract_lets rest
    have hrest : ∀ a, Stays (Guarded w false) (rest a) :=
      fun _ => .ite (stays_runOf hbase hinputs hstages)
      (.ite (stays_writeTree _ _ _) (.bind (stays_print _) fun _ => .throw _))
    exact Stays.ite (.bind (stays_draw c path stem g) hrest) (hrest ()) t hfinished

end Steps

structure Fresh (s : Session) : Prop where
  log : s.log.written = []
  started : s.started = []
  calm : ∀ o ∈ s.outcomes, ∀ v ∈ o.writes, isCwl (Path.resolve s.files.cwd v.1) = false

theorem Fresh.guarded (h : Fresh s) (tree : Compile.PartTree) (base inputs : String) :
    Guarded ⟨tree, base, inputs, s.files.cwd⟩ false s :=
  ⟨rfl, h.log, h.calm, nofun, fun x hx => by rw [h.started] at hx; cases hx⟩

def RunsWritten (tree : Compile.PartTree) (base inputs : String) (s : Session) : Prop :=
  ∀ x ∈ s.started, isRunner x.command → Found ⟨tree, base, inputs, s.files.cwd⟩ x.files

theorem Guarded.runsWritten {dir : String} (h : Guarded ⟨tree, base, inputs, dir⟩ held s) :
    RunsWritten tree base inputs s := by
  intro x hx hrun
  rw [h.cwd]
  exact h.runs x hx hrun

/-- The documents that a runner finds are those of the tree as it is after the tools were adapted
and put into their workflow and before entry points are removed, whether or not that is asked for.
-/
theorem runner_finds_tree {s : Session} (hs : Fresh s) :
    (∀ (c : Program.Call) (path stem : String) (tree final : Compile.PartTree) (g : Graph)
      (t : Session),
      (Program.finish c tree).outcome s = (.ok final, t) →
      StagesNoCwl s.files.cwd final.part.jobInputs (Path.absolute s.files.cwd (Path.parent path))
        "autogenerated" →
      RunsWritten final "autogenerated" (c.text "inputs_file")
        ((Program.deliver c path stem tree g).outcome s).2) ∧
    ∀ (settings : Entries) (name engine base : String) (env : Doc) (tree : Compile.PartTree),
      RunsWritten tree base (Entries.getD settings "inputs_file" (.str "")).text
        ((Assembly.Assemble.deliver settings name engine base env tree).outcome s).2 := by
  refine ⟨fun c path stem tree final g t hfinal hstages => ?_,
    fun settings name engine base env tree => ?_⟩
  · exact ((hs.guarded final "autogenerated" (c.text "inputs_file")).deliver rfl rfl hstages
      hfinal).runsWritten
  · exact Guarded.runsWritten (stays_deliver rfl s (hs.guarded tree base _))

namespace Sample

def tool : Compile.PartTree :=
  .node ⟨[], "w", .null, Doc.obj [("class", .str "CommandLineTool"),
    ("requirements", Doc.obj [("DockerRequirement", Doc.obj [("dockerPull", .str "img:1")])])], "",
    [], [], [], [], ""⟩ []

def session : Session :=
  { files := { cwd := "/w" }, outcomes := replicate 3 (.ended 0 "" none none []) }

def options : Entries :=
  [(.str "container_engine", .str "singularity"), (.str "cwl_runner", .str "cwltool"),
    (.str "docker_remove_entrypoints", .str "yes"), (.str "run_local", .str "yes")]

def commandRun : Session :=
  ((Program.deliver ⟨options, []⟩ "w.wic" "w" tool (Graph.empty "" "")).outcome session).2

def memoryRun : Session :=
  ((Assembly.Assemble.deliver options "w" "singularity" "b" .null tool).outcome session).2

theorem session_fresh : Fresh session := ⟨rfl, rfl, by simp [session, Outcome.writes]⟩

end Sample

theorem runner_finds_tree_image :
    RunsWritten Sample.tool "autogenerated" "" Sample.commandRun ∧
      RunsWritten Sample.tool "b" "" Sample.memoryRun ∧
      [Sample.commandRun, Sample.memoryRun].all (fun s =>
        s.started.any (isRunner ·.command)) = true :=
  ⟨(runner_finds_tree Sample.session_fresh).1
    ⟨Sample.options, []⟩ "w.wic" "w" Sample.tool Sample.tool _ Sample.session rfl nofun,
    (runner_finds_tree Sample.session_fresh).2 _ _ _ _ _ _, by decide +kernel⟩

end Run

end WorkflowInference
