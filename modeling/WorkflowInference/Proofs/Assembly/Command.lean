import Mathlib.Data.List.Nodup
import Mathlib.Data.List.Perm.Subperm
import WorkflowInference.Proofs.Assembly.Binding

/-!
Every command keeps a scene sound, and so does every run of commands. A run starts from an empty
scene; the marks in it are those that linked inputs asked for at some moment of the run.
-/
namespace WorkflowInference.Assembly

open List Keyed
open Scene (Steady Linking)

variable {g : Given} {gs : List Given} {d doc : Doc} {name : String} {registry : Registry}

namespace Scene

variable {s : Scene} {i : Nat} {p q : Process}

theorem Steady.put_same (hp : s.process? i = some p) (hins : q.inputs = p.inputs)
    (houts : q.outputs = p.outputs) (hstep : q.isStep = p.isStep)
    (hchildren : q.children = p.children) : s.Steady (s.put i q) := by
  have hext : p.Extends q :=
    ⟨hstep, hchildren, fun k hk => hins ▸ hk, fun k o ho => ⟨o, houts ▸ ho, rfl, fun _ _ ha => ha⟩⟩
  refine .put hp hext fun H hs => ?_
  have h := hs i p hp
  exact
    { children := hchildren ▸ h.children
      backed := hins ▸ h.backed
      named := fun hq => hins ▸ h.named (hstep ▸ hq)
      distinct := houts ▸ h.distinct
      marks := fun e he a ha => hstep ▸ h.marks e (houts ▸ he) a ha
      sources := fun e he src hsrc => (h.sources e (houts ▸ he) src hsrc).mono (.refl s) hext }

theorem Steady.put_step (hp : s.process? i = some p) (hpart : p.content = .step part) :
    s.Steady (s.put i { p with content := .step part' }) :=
  .put_same hp rfl rfl (by simp [Process.isStep, hpart]) (by simp [Process.children, hpart])

def add (s : Scene) (p : Process) : Scene := { s with processes := s.processes ++ [p] }

theorem process?_add (hq : s.process? j = some q) : (s.add p).process? j = some q := by
  have hlt : j < s.processes.length := (List.getElem?_eq_some_iff.mp hq).1
  exact (List.getElem?_append_left hlt).trans hq

theorem process?_add_length : (s.add p).process? s.processes.length = some p :=
  getElem?_concat_length

theorem Steady.add (hp : ∀ H, p.Sound H (s.add p) s.processes.length) : s.Steady (s.add p) := by
  have hext : s.Extends (s.add p) := fun j q hq => ⟨q, process?_add hq, .refl q⟩
  refine ⟨hext, fun H hs j q hq => ?_⟩
  by_cases hj : j < s.processes.length
  · have hold : s.process? j = some q := (List.getElem?_append_left hj).symm.trans hq
    exact (hs j q hold).mono hext
  · have hlast : j = s.processes.length := by
      have hlt : j < (s.processes ++ [p]).length := (List.getElem?_eq_some_iff.mp hq).1
      rw [length_append, length_singleton] at hlt
      omega
    subst hlast
    cases process?_add_length.symm.trans hq
    exact hp H

end Scene

def Process.Scatterable (p : Process) (key : String) : Prop :=
  ∃ x, p.inputs.lookup key = some x ∧ x.scatterable

namespace Assemble

variable {α β : Type} {s : Scene} {i : Nat} {E : Scene → Prop} {p : Process} {path : String}
  {stepName : Doc}

theorem Ends.stepPart_bind {f : StepPart → Assemble β} {S : β → Scene → Prop} (hE : E s)
    (h : ∀ p part, s.process? i = some p → p.content = .step part → Ends (f part) s S E) :
    Ends (stepPart i >>= f) s S E := by
  rw [stepPart, bind_assoc]
  refine .process_bind hE fun p hp => ?_
  split
  · rename_i part hpart
    rw [pure_bind]
    exact h p part hp hpart
  · exact .throw_bind hE

theorem setStepPart_steady (hp : s.process? i = some p)
    (hpart : p.content = .step part) : Ends (setStepPart i part') s (fun _ => s.Steady) s.Steady :=
  .process_of hp (.setProcess (.put_step hp hpart))

theorem checkScatter_spec :
    Ends (checkScatter (some i) gs) s (fun keys t => t = s ∧ keys.Nodup ∧
      ∀ k ∈ keys, ∃ p, s.process? i = some p ∧ p.Scatterable k) fun t => t = s := by
  refine .bind (.mapM (P := fun _ => True) fun g => ?_) ?_
  · cases g with
    | input j k => exact .pure ⟨rfl, trivial⟩
    | _ => exact .throw rfl
  rintro keys _ ⟨rfl, -⟩
  show Ends (if _ then _ else _) _ _ _
  split
  · exact .throw_bind rfl
  rename_i s hdups
  refine .bind
    (.forM (P := fun e => e.1 = i ∧ ∃ p, s.process? i = some p ∧ p.Scatterable e.2) fun e => ?_) ?_
  · show Ends (if _ then _ else _) _ _ _
    split
    · exact .throw_bind rfl
    rename_i hj
    have hj : e.1 = i := by simpa using hj
    refine .input_bind rfl fun p x hp hx => ?_
    show Ends (if _ then _ else _) _ _ _
    split
    · exact .throw_bind rfl
    show Ends (if _ then _ else _) _ _ _
    split
    · exact .throw rfl
    · rename_i hscatter
      exact .pure ⟨rfl, hj, p, hj ▸ hp, x, hx, by simpa using hscatter⟩
  rintro _ _ ⟨rfl, hkeys⟩
  refine .pure ⟨rfl, ?_, fun k hk => ?_⟩
  · obtain ⟨hnodup, hmem⟩ : keys.eraseDups.Nodup ∧ _ := eraseDups_spec (by simp)
    have hperm := (hnodup.subperm fun e => (hmem e).mp).perm_of_length_le (Nat.le_of_not_lt hdups)
    refine List.Nodup.map_on (fun e he e' he' h => Prod.ext ?_ h) (hperm.nodup_iff.mp hnodup)
    exact (hkeys e he).1.trans (hkeys e' he').1.symm
  · obtain ⟨e, he, rfl⟩ := mem_map.mp hk
    exact (hkeys e he).2

theorem setScatter_spec :
    Ends (setScatter i gs) s (fun _ t => ∃ p part keys, s.process? i = some p ∧
      p.content = .step part ∧ keys.Nodup ∧ (∀ k ∈ keys, p.Scatterable k) ∧
      t = s.put i { p with content := .step { part with scatter := keys } }) fun t => t = s := by
  refine checkScatter_spec.bind ?_
  rintro keys _ ⟨rfl, hnodup, hkeys⟩
  refine .stepPart_bind rfl fun p part hp hpart => .process_of hp (.setProcess ?_)
  refine ⟨p, part, keys, hp, hpart, hnodup, fun k hk => ?_, rfl⟩
  obtain ⟨p', hp', hk⟩ := hkeys k hk
  cases hp.symm.trans hp'
  exact hk

theorem setScatterMethod_spec :
    Ends (setScatterMethod i d) s (fun _ t =>
      ∃ p part, s.process? i = some p ∧ p.content = .step part ∧ checkScatterMethod d = .ok () ∧
      t = s.put i { p with content := .step { part with scatterMethod := d } }) fun t => t = s := by
  refine .lift_bind rfl fun _ hcheck => .stepPart_bind rfl fun p part hp hpart =>
    .process_of hp (.setProcess ?_)
  exact ⟨p, part, hp, hpart, hcheck, rfl⟩

theorem setScatter_steady : Moves Steady (setScatter i gs) := by
  refine fun s => setScatter_spec.imp ?_ fun _ ht => .of_processes (congrArg _ ht)
  rintro _ _ ⟨p, part, keys, hp, hpart, -, -, rfl⟩
  exact .put_step hp hpart

theorem setScatterMethod_steady : Moves Steady (setScatterMethod i d) := by
  refine fun s => setScatterMethod_spec.imp ?_ fun _ ht => .of_processes (congrArg _ ht)
  rintro _ _ ⟨p, part, hp, hpart, -, rfl⟩
  exact .put_step hp hpart

theorem scatterOn_steady : Moves Steady (scatterOn i gs d) :=
  .bind setScatter_steady fun _ => setScatterMethod_steady

theorem assignStep_moves {R : Scene → Scene → Prop} [Absorbs R Steady]
    (h : Moves R (bindInput i name g false)) : Moves R (assignStep i name g) := by
  intro s
  have hE : R s s := Absorbs.of_quiet (.refl s)
  have hsteady : ∀ {x : Assemble Unit}, Ends x s (fun _ => s.Steady) s.Steady →
      Ends x s (fun _ => R s) (R s) :=
    fun hx => hx.mono Absorbs.of_quiet
  refine .process_bind hE fun p hp => .stepPart_bind hE fun p' part hp' hpart => ?_
  cases hp.symm.trans hp'
  have hset : ∀ part', Ends (setStepPart i part') s (fun _ => R s) (R s) := fun part' =>
    hsteady (setStepPart_steady hp hpart)
  split
  · exact hsteady (setScatter_steady s)
  · split
    · exact .throw hE
    · exact hset _
  · exact .throw hE
  · exact hsteady (setScatterMethod_steady s)
  · exact .lift_bind hE fun _ _ => hset _
  · exact .throw hE
  · exact .setProcess (Absorbs.of_quiet (.put_same hp rfl rfl rfl rfl))
  · exact hset _
  · exact hset _
  · exact hset _
  · exact hset _
  · exact hset _
  · split
    · exact .pure hE
    split
    · exact h s
    split
    · exact .throw hE
    · exact .throw hE

theorem assignStep_steady : Moves Steady (assignStep i name (.literal d)) :=
  assignStep_moves (bindInput_moves ensureInput_steady bindInline_steady)

theorem assignStep_linking : Moves Linking (assignStep i name g) :=
  assignStep_moves bindInput_linking

theorem slotsOf_spec {make : Facts → α} (h : slotsOf make ds = .ok es) :
    (keys es).Nodup ∧ ∀ e ∈ es, ∃ f, e.2 = make f := by
  refine (Result.foldlM_eq_ok h).keeps (P := fun es =>
    (keys es).Nodup ∧ ∀ e ∈ es, ∃ f, e.2 = make f) ?_ ?_
  · rintro d - acc acc' ⟨hnodup, hmade⟩ hstep
    obtain ⟨f, -, hstep⟩ := Result.of_bind hstep
    cases hstep
    refine ⟨nodup_put hnodup, fun e he => ?_⟩
    rcases mem_put he with he | rfl
    · exact hmade e he
    · exact ⟨f, rfl⟩
  · exact ⟨nodup_nil, fun _ h => by cases h⟩

theorem Ends.addProcess {Q : Nat → Scene → Prop} (h : Q s.processes.length (s.add p)) :
    Ends (addProcess p) s Q E := .of_ok rfl h

theorem addStep_steady : Moves Steady (addStep face tool path name config registry) := by
  intro s
  refine .lift_bind (.refl s) fun ins hins => .lift_bind (.refl s) fun outs houts => ?_
  refine .bind (P := fun _ t => s.Steady t) (.addProcess (.add fun H => ?_)) fun i t hst =>
    Moves.after (.bind (.forM fun e => ?_) fun _ => .pure _) hst
  · -- A new step has no links, no marks and no sources.
    refine ⟨fun c hc => ?_, fun e he m src hb => ?_, fun hstep => ?_, (slotsOf_spec houts).1,
      fun e he a ha => ?_, fun e he src hsrc => ?_⟩
    · cases hc
    · obtain ⟨f, hf⟩ := (slotsOf_spec hins).2 e he
      rw [hf] at hb
      cases hb
    · cases hstep
    · obtain ⟨f, hf⟩ := (slotsOf_spec houts).2 e he
      rw [hf] at ha
      cases ha
    · obtain ⟨f, hf⟩ := (slotsOf_spec houts).2 e he
      rw [hf] at hsrc
      cases hsrc
  · refine .bind .files fun fs => .bind (.lift _) fun v => ?_
    split
    · exact assignStep_steady
    · exact .throw _

theorem interface_steady : Moves Steady (interface doc e) := by
  refine .bind .get fun u => ?_
  split
  · intro s
    exact .bind (P := fun _ t => s.Steady t) (.modify (.of_processes rfl)) fun _ _ h => .pure h
  · exact .throw _

theorem stepOfDocument_steady {name runPath config : Doc} :
    Moves Steady (stepOfDocument doc name runPath config registry) := by
  refine .bind (.lift _) fun es => .bind (.lift _) fun path => ?_
  refine .bind (.lift _) fun tool => .bind interface_steady fun face => ?_
  exact .bind (.lift _) fun config => addStep_steady

theorem stepOfTool_steady : Moves Steady (stepOfTool name doc stepName registry) := by
  cases doc with
  | map es =>
    exact .bind (.lift _) fun tool => .bind interface_steady fun face =>
      addStep_steady
  | _ => exact .throw _

theorem readDocument_steady {p : String} : Moves Steady (readDocument p) :=
  .bind (.ofAct _) fun _ => .bind (.lift _) fun _ => .pure _

theorem stepOfFile_steady : Moves Steady (stepOfFile path configPath stepName registry) := by
  refine .bind .files fun _ => .ite (.bind .files fun fs => ?_) ?_
  · dsimp only
    generalize Yaml.read ((fs.read? path).getD "") = read
    cases read with
    | error e => exact .throw_bind _
    | ok doc =>
      refine .bind interface_steady fun face => .bind (.pure _) fun found => ?_
      cases configPath with
      | none => exact .bind (.pure _) fun _ => addStep_steady
      | some p => exact .bind (.bind readDocument_steady fun _ => .lift _) fun _ => addStep_steady
  · cases registry.get? ⟨Path.stem path, globalSpace⟩ with
    | none => exact .throw_bind _
    | some t =>
      refine .bind interface_steady fun face => .bind (.pure _) fun found => ?_
      cases configPath with
      | none => exact .bind (.pure _) fun _ => addStep_steady
      | some p => exact .bind (.bind readDocument_steady fun _ => .lift _) fun _ => addStep_steady

end Assemble

open Assemble

section Commands

variable {ids : Named} {i : Nat} {s : Scene} {method : String}

theorem refOf_steady : Moves Steady (refOf ids d) := by
  unfold refOf
  cases ids.lookup d.text with
  | none => exact .throw _
  | some i => exact .pure _

theorem mapM_refOf {ds : List Doc} :
    Ends (ds.mapM (refOf ids)) s (fun cs t => t = s ∧ ∀ c ∈ cs, ∃ n, (n, c) ∈ ids)
      fun t => t = s := by
  refine .mapM fun d => ?_
  unfold refOf
  cases hi : ids.lookup d.text with
  | none => exact .throw rfl
  | some i => exact .pure ⟨rfl, _, mem_of_lookup hi⟩

theorem attrOf_steady : Moves Steady (attrOf i name) := by
  refine .process_bind fun p => ?_
  split
  · split
    all_goals first
      | exact .pure _
      | exact .ite (.throw _) (.ite (.pure _) (.throw _))
  · split
    all_goals first
      | exact .pure _
      | exact .bind .get fun _ => .bind (.lift _) fun _ => .pure _
      | exact .ite (.throw _) (.pure _)

theorem setType_name {f g : Facts} {t : Doc} (h : f.setType t = .ok g) : g.name = f.name := by
  obtain ⟨u, -, h⟩ := Result.of_bind h
  cases h
  rfl

theorem givenOf_steady {v : Doc} : Moves Steady (givenOf ids v) := by
  unfold givenOf
  split
  · exact .bind (.lift _) fun _ => .pure _
  · rename_i kind id name rest
    refine .bind refOf_steady fun i => ?_
    intro s
    refine .process_bind (.refl s) fun p hp => ?_
    have hadd : ¬ p.isStep → Ends (addOutput i name none .null) s (fun _ => s.Steady) s.Steady :=
      fun h =>
      addOutput_steady hp (by simpa using h)
    split
    · show Ends (if _ then _ else _) _ _ _
      split
      · exact .output_bind (.refl s) fun _ _ _ _ => .pure (.refl s)
      · rename_i hstep
        exact (hadd hstep).bind fun _ _ h => .pure h
    · have hretype := retypeOutput_steady name (i := i) (r := fun o =>
        o.facts.setType (rest.headD .null)) fun _ _ => setType_name
      have hrest := hretype.bind fun _ => Moves.pure (R := Steady) (Given.output ⟨i, name⟩)
      simp only [bind_assoc] at hrest
      show Ends (if _ then _ else _) _ _ _
      split
      · rename_i hstep
        exact (hadd (by simpa using hstep)).bind fun _ _ h => hrest.after h
      · exact hrest s
    · show Ends (if _ then _ else _) _ _ _
      split
      · exact .input_bind (.refl s) fun _ _ _ _ => .pure (.refl s)
      · exact .pure (.refl s)
    · show Ends (if _ then _ else _) _ _ _
      split
      · have hretype := retypeInput_steady name (i := i) (r := fun x =>
          x.facts.setType (rest.headD .null)) fun _ _ => setType_name
        have hrest := hretype.bind fun _ => Moves.pure (R := Steady) (Given.input i name)
        simp only [bind_assoc] at hrest
        exact hrest s
      · exact (ensureInput_steady.bind fun _ => .pure _) s
    · exact attrOf_steady s
    · exact .throw (.refl s)
  · exact .throw _

theorem givenDoc_steady : Moves Steady (givenDoc g) := by
  cases g with
  | literal d => exact .pure _
  | output r => exact .output_bind fun _ => .pure _
  | input i k => exact .input_bind fun _ => .pure _
  | reference w n b => exact .process_bind fun _ => .pure _

theorem fileStep_steady {o : String → Doc} : Moves Steady (fileStep path config o registry) := by
  refine .ite (.throw_bind _) ?_
  generalize (if path.isNull then o "clt_path" else path) = source
  cases source with
  | str q => exact .bind (.lift _) fun _ => stepOfFile_steady
  | path q => exact .bind (.lift _) fun _ => stepOfFile_steady
  | _ => exact .throw _

theorem needWorkflow_steady : Moves Steady (needWorkflow i method) :=
  .process_bind fun _ => .ite (.throw _) (.pure _)

theorem needWorkflow_ends : Ends (needWorkflow i method) s
    (fun p t => t = s ∧ s.process? i = some p ∧ p.isStep = false) fun t => t = s := by
  refine .process_bind rfl fun p hp => ?_
  split
  · exact .throw rfl
  · rename_i hstep
    exact .pure ⟨rfl, hp, by simpa using hstep⟩

theorem assign_linking : Moves Linking (assign i name g) := by
  intro s
  have hE : s.Linking s := .refl s
  refine .process_bind hE fun p hp => ?_
  split
  · exact assignStep_linking s
  rename_i hstep
  split
  · exact .pure hE
  split
  · split
    · exact .setProcess (Absorbs.of_quiet (.put_same hp rfl rfl rfl rfl))
    · exact .pure hE
  split
  · exact (bindOutput_steady hp (by simpa using hstep)).mono Steady.linking
  · exact bindInput_linking s

def Named.Within (ids : Named) (s : Scene) : Prop := ∀ e ∈ ids, e.2 < s.processes.length

def Command.isPublic : Command → Bool
  | .setValue .. => false
  | _ => true

theorem Scene.Extends.length_le (h : s.Extends t) (hi : i < s.processes.length) :
    i < t.processes.length := by
  obtain ⟨q, hq, -⟩ := h i _ (getElem?_eq_getElem hi)
  exact (List.getElem?_eq_some_iff.mp hq).1

def Answers (ids : Named) (x : Assemble (Answer × Option (String × Nat))) : Prop :=
  ∀ s, ids.Within s →
    Ends x s (fun a t => s.Linking t ∧ ∀ e ∈ a.2, e.2 < t.processes.length) s.Linking

namespace Answers

variable {α : Type}

theorem pure (a : Answer) : Answers ids (pure (a, none)) := fun s _ => .pure ⟨.refl s, by simp⟩

variable {f : α → Assemble (Answer × Option (String × Nat))}

theorem throw_bind (e : Failure) :
    Answers ids (MonadExcept.throw e >>= f) := fun s _ => .throw_bind (.refl s)

theorem throw (e : Failure) : Answers ids (throw e) := fun s _ => .throw (.refl s)

theorem ite [Decidable c] (hx : Answers ids x)
    (hy : Answers ids y) : Answers ids (if c then x else y) := by
  split
  · exact hx
  · exact hy

theorem plain (h : Moves Linking x) : Answers ids (plain x) := fun s _ =>
  (h s).bind fun _ _ h => .pure ⟨h, by simp⟩

theorem done (h : Moves Linking x) : Answers ids (done x) := fun s _ =>
  (h s).bind fun _ _ h => .pure ⟨h, by simp⟩

theorem bind (hx : Moves Steady x) (hf : ∀ a, Answers ids (f a)) : Answers ids (x >>= f) := by
  intro s hids
  refine ((hx s).imp (fun _ _ h => h) fun _ => Steady.linking).bind fun a t hst => ?_
  refine (hf a t fun e he => hst.extends_.length_le (hids e he)).imp ?_ fun _ => hst.trans_linking
  rintro b u ⟨hu, hb⟩
  exact ⟨hst.trans_linking hu, hb⟩

theorem process {g : Process → Answer} :
    Answers ids (do return (g (← process i), some (n, i))) := by
  intro s _
  have hE : s.Linking s := .refl s
  refine .process_bind hE fun p hp => .pure ⟨hE, ?_⟩
  rintro _ ⟨⟩
  exact (List.getElem?_eq_some_iff.mp hp).1

theorem stepAnswer : Answers ids (do return (.doc (← stepAnswer i), some (n, i))) := by
  intro s _
  have hE : s.Linking s := .refl s
  have hanswer :
      Ends (Assembly.stepAnswer i) s (fun _ t => t = s ∧ i < s.processes.length) fun t => t = s :=
    .process_bind rfl fun p hp => .stepPart_bind rfl fun _ _ _ _ =>
      .pure ⟨rfl, (List.getElem?_eq_some_iff.mp hp).1⟩
  refine (hanswer.imp (fun _ _ h => h) fun _ h => h ▸ hE).bind ?_
  rintro d _ ⟨rfl, hi⟩
  refine .pure ⟨hE, ?_⟩
  rintro _ ⟨⟩
  exact hi

end Answers

variable {tools : Registry} {s : Scene} {c : Command}

theorem process_steady : Moves Steady (process i) := fun s => by
  rw [← bind_pure (process i)]
  exact .process_bind (.refl s) fun _ _ => .pure (.refl s)

theorem compileTree_steady : Moves Steady (compileTree i tools) :=
  .bind .get fun _ => .process_bind fun _ => .bind (.lift _) fun _ => .bind (.lift _) fun _ =>
    .bind (.ofAct _) fun _ =>
    .pure _

theorem compile_steady : Moves Steady (compile i tools) :=
  .process_bind fun _ => .bind compileTree_steady fun _ => .bind (.lift _) fun _ =>
    .bind (.lift _) fun _ => .pure _

theorem addWorkflow_steady (hcs : ∀ c ∈ cs, c < s.processes.length) :
    Ends (addWorkflow cs name) s (fun _ => s.Steady) s.Steady := by
  refine .addProcess (.add fun H => ⟨hcs, ?_, ?_, nodup_nil, ?_, ?_⟩)
  all_goals simp

theorem Command.run_answers (hc : c.isPublic) : Answers ids (c.run ids) := by
  cases c with
  | setValue id side place value linked => cases hc
  | step id doc opts =>
    exact .bind (.lift _) fun o => .bind stepOfDocument_steady fun i => .process
  | stepTool id spec opts =>
    refine .bind (.ofAct _) fun made => .bind (.lift _) fun o =>
      .ite (.throw_bind _) (.ite (.throw_bind _) ?_)
    exact .bind (.lift _) fun doc => .bind stepOfTool_steady fun i => .stepAnswer
  | toStep id spec opts =>
    exact .bind (.ofAct _) fun made => .bind (.lift _) fun o => .bind (.lift _) fun doc =>
      .bind stepOfDocument_steady fun i => .stepAnswer
  | stepFile id files path config opts =>
    refine .bind (fun s => .modify (.of_processes rfl)) fun _ => .bind (.lift _) fun o => ?_
    exact .bind (.lift _) fun p => .bind (.lift _) fun c =>
      .bind fileStep_steady fun i => .stepAnswer
  | stepRegistry id path tools opts =>
    exact .bind (.lift _) fun reg => .bind (.lift _) fun o => .bind (.lift _) fun p =>
      .bind fileStep_steady fun i =>
      .stepAnswer
  | stepToolConfig spec path =>
    refine .bind (.ofAct _) fun made => .ite (.throw_bind _) (.bind (.lift _) fun doc => ?_)
    exact .bind stepOfTool_steady fun i => .plain (.process_bind fun _ => .pure _)
  | stepLike name doc =>
    cases name with
    | str n => exact .plain (.bind stepOfTool_steady fun i => .process_bind fun _ => .pure _)
    | _ => exact .throw _
  | workflow id children name =>
    intro s₀ hids
    refine (mapM_refOf.imp (fun _ _ h => h) fun t h => h ▸ .refl s₀).bind ?_
    rintro cs s ⟨rfl, hcs⟩
    have hchildren : ∀ c ∈ cs, c < s.processes.length :=
      fun c hc => (hcs c hc).elim fun n hn => hids (n, c) hn
    refine ((addWorkflow_steady hchildren).imp (fun _ _ h => h) fun _ => Steady.linking).bind
      fun i t hst => ?_
    have hids' : ids.Within t := fun e he => hst.extends_.length_le (hids e he)
    refine (Answers.process t hids').imp ?_ fun _ => hst.trans_linking
    rintro a u ⟨hu, ha⟩
    exact ⟨hst.trans_linking hu, ha⟩
  | bind id key v =>
    exact .done (.bind refOf_steady fun i => .bind givenOf_steady fun g =>
      .ite (.pure _) bindInput_linking)
  | bindMethod id key v =>
    exact .done (.bind refOf_steady fun i => .bind givenOf_steady fun g => bindInput_linking)
  | set id name v =>
    exact .done (.bind refOf_steady fun i => .bind givenOf_steady fun g => assign_linking)
  | look v => exact .plain (.bind givenOf_steady fun g => givenDoc_steady.linking)
  | setOutput id key v =>
    exact .done (.bind refOf_steady fun i => .bind givenOf_steady fun g =>
      .ite (.pure _) assignOutput_steady.linking)
  | bindOutput id key v =>
    refine .done (.bind refOf_steady fun i s => ?_)
    have hE : s.Linking s := .refl s
    refine .bind (needWorkflow_ends.imp (fun _ _ h => h) fun t h => h ▸ hE) ?_
    rintro p t ⟨rfl, hp, hstep⟩
    refine .bind ((givenOf_steady t).imp (fun _ _ h => h) fun _ => Steady.linking) fun g u htu => ?_
    obtain ⟨q, hq, hpq⟩ := htu.extends_ i p hp
    exact (bindOutput_steady hq (hpq.isStep.trans hstep)).mono fun h => (htu.trans h).linking
  | addInput id key type =>
    exact .bind refOf_steady fun i => .bind needWorkflow_steady fun _ =>
      .bind ensureInput_steady fun _ =>
      .plain (.input_bind fun _ => .pure _)
  | addOutput id key v type =>
    have hgiven : Moves Steady (some <$> givenOf ids v) := by
      rw [map_eq_pure_bind]
      exact .bind givenOf_steady fun g => .pure _
    have hrest : ∀ i g, Answers ids (do
        let _ ← needWorkflow i "add_output"
        Assemble.addOutput i key g type
        plain (do return outputDoc (← Assemble.output i key))) := by
      intro i g
      rw [← bind_assoc]
      refine .bind (fun s =>
        .bind (needWorkflow_ends.imp (fun _ _ h => h) fun t h => h ▸ .refl s) ?_) fun _ =>
        .plain (.output_bind fun _ => .pure _)
      rintro p t ⟨rfl, hp, hstep⟩
      exact addOutput_steady hp hstep
    refine .bind refOf_steady fun i =>
      .ite (.bind (.pure _) fun g => hrest i g) (.bind hgiven fun g => hrest i g)
  | scatter id vs =>
    exact .done (.bind refOf_steady fun i => .bind (.mapM fun _ => givenOf_steady) fun gs =>
      .process_bind fun p =>
      .ite setScatter_steady.linking bindInput_linking)
  | scatterOn id vs method =>
    exact .done (.bind refOf_steady fun i => .bind (.mapM fun _ => givenOf_steady) fun gs =>
      .process_bind fun p =>
      .ite (.throw_bind _) scatterOn_steady.linking)
  | index id side place => exact .plain (.bind refOf_steady fun i => .process_bind fun p => .lift _)
  | indexStore id side place =>
    exact .plain (.bind refOf_steady fun i => .process_bind fun p => .lift _)
  | count id => exact .bind refOf_steady fun i => .bind process_steady fun p => .pure _
  | ports id => exact .bind refOf_steady fun i => .bind process_steady fun p => .pure _
  | yml id =>
    refine .bind refOf_steady fun i => .bind process_steady fun p => ?_
    split
    · exact .pure _
    · exact .plain givenDoc_steady.linking
  | yaml id =>
    exact .plain (.bind refOf_steady fun i => .bind attrOf_steady fun g => givenDoc_steady.linking)
  | wic id opts =>
    exact .bind refOf_steady fun i => .bind needWorkflow_steady fun p =>
      .plain (.bind .get fun s => .bind (.lift _) fun _ => .pure _)
  | writeWic id path inlined =>
    exact .bind refOf_steady fun i => .bind needWorkflow_steady fun p => .bind .get fun s =>
      .bind (.lift _) fun _ =>
      .bind (.ofAct _) fun _ => .pure _
  | validate id =>
    exact .done (.bind refOf_steady fun i => .process_bind fun p => .bind .get fun s => .lift _)
  | flatten id => exact .bind refOf_steady fun i => .bind .get fun s => .pure _
  | compile id tools =>
    exact .bind refOf_steady fun i => .bind needWorkflow_steady fun p => .bind (.lift _) fun _ =>
      .bind compile_steady fun _ => .pure _
  | jobYaml id =>
    exact .bind refOf_steady fun i => .bind needWorkflow_steady fun p =>
      .plain (.bind compile_steady fun _ => .bind (.lift _) fun _ => .pure _)
  | cwlYaml id =>
    exact .bind refOf_steady fun i => .bind needWorkflow_steady fun p =>
      .bind compile_steady fun _ =>
      .bind (.lift _) fun _ => .bind (.lift _) fun _ => .pure _
  | writeCompiled id cwlPath jobPath =>
    have hwrite : ∀ (path : Doc) (dflt : String) (ss : List String) (d : Doc), Moves Steady (do
        let file ← (artifactPath (← (decoded path : Result Doc)) dflt ss : Result String)
        ofAct (Act.ofLogged (Logged.write file (← (Yaml.write d : Result String))))
        return file) := fun path dflt ss d =>
      .bind (.lift _) fun _ => .bind (.lift _) fun _ => .bind (.lift _) fun _ =>
        .bind (.ofAct _) fun _ => .pure _
    exact .bind refOf_steady fun i => .bind needWorkflow_steady fun _ =>
      .bind compile_steady fun p =>
      .bind (hwrite _ _ _ _) fun a => .bind (hwrite _ _ _ _) fun b => .pure _
  | compileToDisk id =>
    exact .bind refOf_steady fun i => .bind needWorkflow_steady fun p =>
      .bind compileTree_steady fun _ =>
      .bind (.ofAct _) fun _ => .pure _
  | slotTexts id => exact .bind refOf_steady fun i => .bind process_steady fun p => .pure _
  | hold id value => exact .bind refOf_steady fun i => .bind (.lift _) fun _ => .pure _
  | hidden id name => exact .bind refOf_steady fun i => .throw _
  | asStep id inlined =>
    refine .bind refOf_steady fun i => .bind process_steady fun p => ?_
    split
    · exact .pure _
    · exact .ite (.plain (.bind .get fun s => .bind (.lift _) fun _ => .pure _)) (.throw _)
  | unknown => exact .throw _

theorem Command.perform_linking (hc : c.isPublic) (hids : ids.Within s) :
    s.Linking (c.perform ids s).2.2 ∧ Named.Within (c.perform ids s).2.1 (c.perform ids s).2.2 := by
  have hclean : s.Steady s.unwarned := .of_processes rfl
  have hrun := Command.run_answers hc s.unwarned fun e he => hclean.extends_.length_le (hids e he)
  have hkept : ∀ {t}, s.unwarned.Linking t → s.Linking t ∧ ids.Within t := fun ht =>
    ⟨hclean.trans_linking ht, fun e he =>
      ht.extends_.length_le (hclean.extends_.length_le (hids e he))⟩
  unfold Command.perform
  rcases hout : (c.run ids).outcome s.unwarned with ⟨e | ⟨a, _ | e⟩, t⟩
  · exact hkept (hrun.error hout)
  · exact hkept (hrun.ok hout).1
  · obtain ⟨ht, he⟩ := hrun.ok hout
    refine ⟨(hkept ht).1, fun e' he' => ?_⟩
    rcases mem_cons.mp he' with rfl | he'
    · exact he _ rfl
    · exact (hkept ht).2 e' he'

end Commands

def build (session : Session) (cs : List Doc) : Named × Scene :=
  (runCommands cs [] { session } []).2

section Runs

variable {session : Session} {cs : List Doc}

theorem runCommands_concat :
    (runCommands (cs ++ [c]) ids s acc).2 = ((Command.ofDoc c).perform
      (runCommands cs ids s acc).2.1 (runCommands cs ids s acc).2.2).2 := by
  induction cs generalizing ids s acc with
  | nil => rfl
  | cons d cs ih => exact ih

theorem build_concat : build session (cs ++ [c]) =
    ((Command.ofDoc c).perform (build session cs).1 (build session cs).2).2 := runCommands_concat

/-- A scene is sound after commands of an author when each mark was allowed to the inputs that were
linked after one of the commands. -/
theorem build_sound {H : String → OutputRef → Prop} (hpublic : ∀ c ∈ cs, (Command.ofDoc c).isPublic)
    (hallow : ∀ ds, ds <+: cs → (build session ds).2.Allows H) :
    (build session cs).2.Sound H ∧ (build session cs).1.Within (build session cs).2 := by
  induction cs using reverseRecOn with
  | nil =>
    refine ⟨fun i p hp => ?_, fun e he => ?_⟩
    · cases hp
    · cases he
  | append_singleton cs c ih =>
    obtain ⟨hsound, hids⟩ := ih (fun d hd => hpublic d (mem_append_left _ hd)) fun ds hds =>
      hallow ds (hds.trans (prefix_append cs [c]))
    have hstep := Command.perform_linking (hpublic c (by simp)) hids
    have hend := hallow (cs ++ [c]) (prefix_refl _)
    rw [build_concat] at hend ⊢
    exact ⟨hstep.1.sound H hsound hend, hstep.2⟩

end Runs

end WorkflowInference.Assembly
