import WorkflowInference.Assembly.Command
import WorkflowInference.Proofs.Entries

/-!
What stays true while processes are put together. `Extends` compares two scenes: processes and
their slots stay, and an output keeps the mark it has. `Sound` is what holds of every process: its
children are older than it, the mark that a linked input knows is on the output that it names, and
the marks are those that were asked for. Each of the ways to bind a slot is checked once against
both.
-/
namespace WorkflowInference

open List Keyed

namespace Keyed

variable {α : Type} {es : List (String × α)} {k : String} {v : α}

theorem mem_keys_put : l ∈ keys (put es k v) ↔ l ∈ keys es ∨ l = k := by
  unfold keys
  fun_induction put es k v with
  | case1 => simp
  | case2 =>
    simp
    tauto
  | case3 _ _ _ _ ih => rw [map_cons, mem_cons, ih, map_cons, mem_cons, or_assoc]

theorem nodup_put (h : (keys es).Nodup) : (keys (put es k v)).Nodup := by
  fun_induction put es k v with
  | case1 => simp [keys]
  | case2 => exact h
  | case3 m _ _ hk ih =>
    obtain ⟨hm, hes⟩ := nodup_cons.mp h
    refine nodup_cons.mpr ⟨fun hmem => ?_, ih hes⟩
    rcases mem_keys_put.mp hmem with hmem | hmem
    · exact hm hmem
    · exact hk hmem

theorem lookup_of_mem (hn : (keys es).Nodup) (h : (k, v) ∈ es) : es.lookup k = some v := by
  induction es with
  | nil => cases h
  | cons e es ih =>
    obtain ⟨hm, hes⟩ := nodup_cons.mp hn
    rcases mem_cons.mp h with rfl | h
    · simp
    · have hne : k ≠ e.1 := by
        rintro rfl
        exact hm (mem_map_of_mem (f := (·.1)) h)
      rw [lookup_cons, beq_false_of_ne hne]
      exact ih hes h

end Keyed

namespace Assembly

namespace Assemble

variable {α β : Type} {x : Assemble α} {f : α → Assemble β} {s : Scene} {P Q : α → Scene → Prop}
  {S : β → Scene → Prop} {E : Scene → Prop}

theorem outcome_bind : (x >>= f).outcome s =
    match x.outcome s with
    | (.ok a, t) => (f a).outcome t
    | (.error e, t) => (.error e, t) := by
  simp only [outcome, ExceptT.run, bind, ExceptT.bind, ExceptT.mk, StateT.bind, StateT.run]
  rcases x s with ⟨r | a, t⟩
  · rfl
  · rfl

theorem outcome_get : (get : Assemble Scene).outcome s = (.ok s, s) := rfl

/-- What holds where a computation ends: of its result and the scene after a success, of the scene
after a failure. -/
structure Ends (x : Assemble α) (s : Scene) (Q : α → Scene → Prop) (E : Scene → Prop) : Prop where
  ok : ∀ {a t}, x.outcome s = (.ok a, t) → Q a t
  error : ∀ {e t}, x.outcome s = (.error e, t) → E t

namespace Ends

theorem of_ok {a : α} {t : Scene} (hx : x.outcome s = (.ok a, t)) (h : Q a t) : Ends x s Q E where
  ok he := by cases hx.symm.trans he; exact h
  error he := by cases hx.symm.trans he

theorem of_error (hx : x.outcome s = (.error e, t)) (h : E t) : Ends x s Q E where
  ok he := by cases hx.symm.trans he
  error he := by cases hx.symm.trans he; exact h

theorem pure (h : Q a s) : Ends (pure a) s Q E := .of_ok rfl h

theorem throw (h : E s) : Ends (throw e : Assemble α) s Q E := .of_error rfl h

variable {r : Result α} {i : Nat} {p : Process} {key : String}

theorem bind (hx : Ends x s P E) (hf : ∀ a t, P a t → Ends (f a) t S E) : Ends (x >>= f) s S E := by
  rcases hout : x.outcome s with ⟨r | a, t⟩
  · exact .of_error (by rw [outcome_bind, hout]) (hx.error hout)
  · have heq : (x >>= f).outcome s = (f a).outcome t := by rw [outcome_bind, hout]
    have hfa := hf a t (hx.ok hout)
    exact ⟨fun h => hfa.ok (heq.symm.trans h), fun h => hfa.error (heq.symm.trans h)⟩

theorem imp {F : Scene → Prop} (hx : Ends x s P E) (hQ : ∀ a t, P a t → Q a t)
    (hF : ∀ t, E t → F t) : Ends x s Q F :=
  ⟨fun h => hQ _ _ (hx.ok h), fun h => hF _ (hx.error h)⟩

theorem mono {F : Scene → Prop} (hx : Ends x s (fun _ => E) E) (h : ∀ {t}, E t → F t) :
    Ends x s (fun _ => F) F :=
  hx.imp (fun _ _ => h) fun _ => h

theorem lift (hok : ∀ a, r = .ok a → Q a s) (hE : E s) : Ends (liftM r : Assemble α) s Q E := by
  cases r with
  | ok a => exact .pure (hok a rfl)
  | error e => exact .throw hE

theorem throw_bind (h : E s) : Ends (MonadExcept.throw e >>= f) s S E :=
  bind (P := fun _ _ => False) (throw h) fun _ _ => False.elim

theorem get {Q : Scene → Scene → Prop} (h : Q s s) : Ends (get : Assemble Scene) s Q E :=
  .of_ok rfl h

theorem modify {g : Scene → Scene} {Q : PUnit → Scene → Prop} (h : Q ⟨⟩ (g s)) :
    Ends (modify g : Assemble PUnit) s Q E :=
  .of_ok rfl h

theorem lift_bind (hE : E s) (h : ∀ a, r = .ok a → Ends (f a) s S E) :
    Ends (liftM r >>= f) s S E := by
  refine bind (P := fun a t => r = .ok a ∧ t = s) (lift (fun a ha => ⟨ha, rfl⟩) hE) ?_
  rintro a _ ⟨ha, rfl⟩
  exact h a ha

theorem process_of {f : Process → Assemble β} (hp : s.process? i = some p)
    (h : Ends (f p) s S E) : Ends (process i >>= f) s S E := by
  have heq : (Assemble.process i).outcome s = (.ok p, s) := by
    have hp : s.processes[i]? = some p := hp
    simp only [Assemble.process, outcome_bind, outcome_get, hp]
    rfl
  refine bind (P := fun q t => q = p ∧ t = s) (of_ok heq ⟨rfl, rfl⟩) ?_
  rintro _ _ ⟨rfl, rfl⟩
  exact h

theorem process_bind {f : Process → Assemble β} (hE : E s)
    (h : ∀ p, s.process? i = some p → Ends (f p) s S E) : Ends (process i >>= f) s S E := by
  cases hp : s.process? i with
  | some p => exact process_of hp (h p hp)
  | none =>
    have heq : (Assemble.process i).outcome s = (.error .missingKey, s) := by
      have hp : s.processes[i]? = none := hp
      simp only [Assemble.process, outcome_bind, outcome_get, hp]
      rfl
    exact bind (P := fun _ _ => False) (of_error heq hE) fun _ _ => False.elim

theorem input_of {f : Input → Assemble β} {x : Input}
    (hp : s.process? i = some p) (hx : p.inputs.lookup key = some x) (h : Ends (f x) s S E) :
    Ends (input i key >>= f) s S E := by
  rw [input, bind_assoc]
  refine process_of hp ?_
  simp only [hx, pure_bind]
  exact h

theorem input_bind {f : Input → Assemble β} (hE : E s)
    (h : ∀ p x, s.process? i = some p → p.inputs.lookup key = some x → Ends (f x) s S E) :
    Ends (input i key >>= f) s S E := by
  rw [input, bind_assoc]
  refine process_bind hE fun p hp => ?_
  split
  · rename_i x hx
    rw [pure_bind]
    exact h p x hp hx
  · exact throw_bind hE

theorem output_bind {f : Output → Assemble β} (hE : E s)
    (h : ∀ p o, s.process? i = some p → p.outputs.lookup key = some o → Ends (f o) s S E) :
    Ends (output i key >>= f) s S E := by
  rw [output, bind_assoc]
  refine process_bind hE fun p hp => ?_
  split
  · rename_i o ho
    rw [pure_bind]
    exact h p o hp ho
  · exact throw_bind hE

theorem mapM {P : β → Prop} {as : List α}
    (h : ∀ a, Ends (f a) s (fun b t => t = s ∧ P b) fun t => t = s) :
    Ends (as.mapM f) s (fun bs t => t = s ∧ ∀ b ∈ bs, P b) fun t => t = s := by
  induction as with
  | nil => exact .pure ⟨rfl, by simp⟩
  | cons a as ih =>
    rw [mapM_cons]
    refine (h a).bind ?_
    rintro b _ ⟨rfl, hb⟩
    refine ih.bind ?_
    rintro bs _ ⟨rfl, hbs⟩
    exact .pure ⟨rfl, forall_mem_cons.mpr ⟨hb, hbs⟩⟩

theorem forM {f : α → Assemble PUnit} {P : α → Prop} {as : List α}
    (h : ∀ a, Ends (f a) s (fun _ t => t = s ∧ P a) fun t => t = s) :
    Ends (as.forM f) s (fun _ t => t = s ∧ ∀ a ∈ as, P a) fun t => t = s := by
  induction as with
  | nil => exact .pure ⟨rfl, by simp⟩
  | cons a as ih =>
    refine (h a).bind ?_
    rintro _ _ ⟨rfl, ha⟩
    exact ih.imp (fun _ t ht => ⟨ht.1, forall_mem_cons.mpr ⟨ha, ht.2⟩⟩) fun _ h => h

end Ends

end Assemble

def Scene.put (s : Scene) (i : Nat) (p : Process) : Scene :=
  { s with processes := s.processes.set i p }

namespace Scene

variable {s t u : Scene} {i j : Nat} {p q r : Process}

theorem process?_put (hp : s.process? i = some p) :
    (s.put i q).process? j = if i = j then some q else s.process? j := by
  unfold process? put at *
  rw [getElem?_set]
  split
  · simp [(List.getElem?_eq_some_iff.mp hp).1]
  · rfl

theorem process?_put_self (hp : s.process? i = some p) : (s.put i q).process? i = some q := by
  rw [process?_put hp, if_pos rfl]

theorem process?_put_of {T : Process → Prop} (hp : s.process? i = some p)
    (hq : s.process? j = some q) (h : T q) (hput : p = q → T r) :
    ∃ q', (s.put i r).process? j = some q' ∧ T q' := by
  rw [process?_put hp]
  split
  · rename_i heq
    subst heq
    exact ⟨r, rfl, hput (Option.some.inj (hp.symm.trans hq))⟩
  · exact ⟨q, hq, h⟩

theorem process?_congr (h : t.processes = s.processes) (i : Nat) : t.process? i = s.process? i := by
  unfold process?
  rw [h]

end Scene

namespace Assemble.Ends

variable {s : Scene} {i : Nat} {key : String} {Q : Unit → Scene → Prop} {E : Scene → Prop}

theorem setProcess (h : Q () (s.put i p)) : Ends (setProcess i p) s Q E := .modify h

variable {p : Process}

theorem setInput_of (hp : s.process? i = some p)
    (h : Q () (s.put i { p with inputs := put p.inputs key x })) : Ends (setInput i key x) s Q E :=
  process_of hp (.setProcess h)

theorem setOutput_of (hp : s.process? i = some p)
    (h : Q () (s.put i { p with outputs := put p.outputs key o })) :
    Ends (setOutput i key o) s Q E :=
  process_of hp (.setProcess h)

end Assemble.Ends

def plainName (key : String) : String := (Text.splitOn "#" key).getLastD ""

structure Process.Extends (p q : Process) : Prop where
  isStep : q.isStep = p.isStep
  children : q.children = p.children
  inputs : ∀ k, has p.inputs k → has q.inputs k
  outputs : ∀ k o, p.outputs.lookup k = some o →
    ∃ o', q.outputs.lookup k = some o' ∧ o'.facts.name = o.facts.name ∧
      (p.isStep → ∀ a, o.mark = some a → o'.mark = some a)

namespace Process.Extends

variable {p q r : Process} {key : String}

theorem refl (p : Process) : p.Extends p :=
  ⟨rfl, rfl, fun _ h => h, fun _ o h => ⟨o, h, rfl, fun _ _ ha => ha⟩⟩

theorem trans (h : p.Extends q) (h' : q.Extends r) : p.Extends r where
  isStep := h'.isStep.trans h.isStep
  children := h'.children.trans h.children
  inputs k hk := h'.inputs k (h.inputs k hk)
  outputs k o ho := by
    obtain ⟨o', ho', hname, hmark⟩ := h.outputs k o ho
    obtain ⟨o'', ho'', hname', hmark'⟩ := h'.outputs k o' ho'
    exact ⟨o'', ho'', hname'.trans hname, fun hstep a ha =>
      hmark' (h.isStep.trans hstep) a (hmark hstep a ha)⟩

theorem setInput (x : Input) : p.Extends { p with inputs := put p.inputs key x } where
  isStep := rfl
  children := rfl
  inputs k hk := by rw [has_put, hk, Bool.or_true]
  outputs _ o h := ⟨o, h, rfl, fun _ _ ha => ha⟩

theorem setOutput (h : ∀ o', p.outputs.lookup key = some o' →
    o.facts.name = o'.facts.name ∧ (p.isStep → ∀ a, o'.mark = some a → o.mark = some a)) :
    p.Extends { p with outputs := put p.outputs key o } where
  isStep := rfl
  children := rfl
  inputs _ hk := hk
  outputs k o' ho' := by
    by_cases hk : key = k
    · subst hk
      exact ⟨o, by rw [lookup_put, if_pos rfl], h o' ho'⟩
    · exact ⟨o', by rw [lookup_put, if_neg hk, ho'], rfl, fun _ _ ha => ha⟩

end Process.Extends

namespace Scene

variable {s t u : Scene} {i j : Nat} {p q : Process} {key : String} {H : String → OutputRef → Prop}

def Extends (s t : Scene) : Prop :=
  ∀ i p, s.process? i = some p → ∃ q, t.process? i = some q ∧ p.Extends q

theorem Extends.refl (s : Scene) : s.Extends s := fun _ p hp => ⟨p, hp, .refl p⟩

theorem Extends.trans (h : s.Extends t) (h' : t.Extends u) : s.Extends u := by
  intro i p hp
  obtain ⟨q, hq, hpq⟩ := h i p hp
  obtain ⟨r, hr, hqr⟩ := h' i q hq
  exact ⟨r, hr, hpq.trans hqr⟩

theorem Extends.put (hp : s.process? i = some p) (h : p.Extends q) : s.Extends (s.put i q) :=
  fun _ r hr =>
  process?_put_of hp hr (.refl r) fun heq => heq ▸ h

def Carries (s : Scene) (r : OutputRef) (a : String) : Prop :=
  ∃ p o, s.process? r.owner = some p ∧ p.isStep ∧ p.outputs.lookup r.key = some o ∧ o.mark = some a

theorem Carries.mono (h : s.Carries r a) (hst : s.Extends t) : t.Carries r a := by
  obtain ⟨p, o, hp, hstep, ho, ha⟩ := h
  obtain ⟨q, hq, hpq⟩ := hst _ p hp
  obtain ⟨o', ho', -, hmark⟩ := hpq.outputs _ o ho
  exact ⟨q, o', hq, hpq.isStep.trans hstep, ho', hmark hstep a ha⟩

/-- Where an output of a workflow may come from: an output of a step under the name that it has, or
one of the inputs of the workflow. -/
inductive Supplies (s : Scene) (w : Process) : OutputSource → Prop
  | output {n : String} {r : OutputRef} {p : Process} {o : Output}
      (hp : s.process? r.owner = some p) (hstep : p.isStep) (ho : p.outputs.lookup r.key = some o) :
      Supplies s w ⟨some n, o.facts.name, some r⟩
  | input {key : String} (h : has w.inputs key) : Supplies s w ⟨none, key, none⟩

theorem Supplies.mono (h : s.Supplies p src) (hst : s.Extends t) (hpq : p.Extends q) :
    t.Supplies q src := by
  cases h with
  | output hp hstep ho =>
    obtain ⟨p', hp', hext⟩ := hst _ _ hp
    obtain ⟨o', ho', hname, -⟩ := hext.outputs _ _ ho
    rw [← hname]
    exact .output hp' (hext.isStep.trans hstep) ho'
  | input h => exact .input (hpq.inputs _ h)

theorem Supplies.of_inputs (h : s.Supplies p src) (hq : q.inputs = p.inputs) :
    s.Supplies q src := by
  cases h with
  | output hp hstep ho => exact .output hp hstep ho
  | input h => exact .input (hq ▸ h)

/-- The mark that a linked input knows is on the output that it names. -/
def Backed (s : Scene) (x : Input) : Prop :=
  ∀ m src, x.binding = some (.linked m src) → ∃ r a, src = some r ∧ m = .str a ∧ s.Carries r a

end Scene

/-- A process as it can be built at a place of a scene; `H` says which marks were asked for. -/
structure Process.Sound (H : String → OutputRef → Prop) (s : Scene) (i : Nat) (p : Process) :
    Prop where
  children : ∀ c ∈ p.children, c < i
  backed : ∀ e ∈ p.inputs, s.Backed e.2
  named : p.isStep = false → ∀ e ∈ p.inputs, e.2.facts.name = plainName e.1
  distinct : (keys p.outputs).Nodup
  marks : ∀ e ∈ p.outputs, ∀ a, e.2.mark = some a → p.isStep ∧ H a ⟨i, e.1⟩
  sources : ∀ e ∈ p.outputs, ∀ src, e.2.source = some src → s.Supplies p src

namespace Process.Sound

variable {H : String → OutputRef → Prop} {s t : Scene} {i : Nat} {p : Process} {key : String}

theorem mono (h : p.Sound H s i) (hst : s.Extends t) : p.Sound H t i where
  children := h.children
  backed e he m src hb := by
    obtain ⟨r, a, hsrc, hm, hc⟩ := h.backed e he m src hb
    exact ⟨r, a, hsrc, hm, hc.mono hst⟩
  named := h.named
  distinct := h.distinct
  marks := h.marks
  sources e he src hsrc := (h.sources e he src hsrc).mono hst (.refl p)

theorem setInput (h : p.Sound H s i) (hb : s.Backed x)
    (hname : p.isStep = false → x.facts.name = plainName key) :
    Process.Sound H s i { p with inputs := put p.inputs key x } where
  children := h.children
  backed e he := by
    rcases mem_put he with he | rfl
    · exact h.backed e he
    · exact hb
  named hstep e he := by
    rcases mem_put he with he | rfl
    · exact h.named hstep e he
    · exact hname hstep
  distinct := h.distinct
  marks := h.marks
  sources e he src hsrc := (h.sources e he src hsrc).mono (.refl s) (.setInput x)

theorem setOutput (h : p.Sound H s i) (hmark : ∀ a, o.mark = some a → p.isStep ∧ H a ⟨i, key⟩)
    (hsource : ∀ src, o.source = some src → s.Supplies p src) :
    Process.Sound H s i { p with outputs := put p.outputs key o } where
  children := h.children
  backed := h.backed
  named := h.named
  distinct := nodup_put h.distinct
  marks e he := by
    rcases mem_put he with he | rfl
    · exact h.marks e he
    · exact hmark
  sources e he src hsrc := by
    rcases mem_put he with he | rfl
    · exact (h.sources e he src hsrc).of_inputs rfl
    · exact (hsource src hsrc).of_inputs rfl

end Process.Sound

namespace Scene

variable {s t u : Scene} {i : Nat} {p q : Process} {key : String} {H : String → OutputRef → Prop}

def Sound (H : String → OutputRef → Prop) (s : Scene) : Prop :=
  ∀ i p, s.process? i = some p → p.Sound H s i

theorem Sound.put (h : s.Sound H) (hp : s.process? i = some p) (hpq : p.Extends q)
    (hq : q.Sound H s i) : (s.put i q).Sound H := by
  intro j r hr
  rw [process?_put hp] at hr
  split at hr
  · cases hr
    rename_i heq
    exact heq ▸ hq.mono (.put hp hpq)
  · exact (h j r hr).mono (.put hp hpq)

/-- A change that links no input: it leaves what was there, and what holds of every process. -/
structure Steady (s t : Scene) : Prop where
  extends_ : s.Extends t
  sound : ∀ H, s.Sound H → t.Sound H

theorem Steady.refl (s : Scene) : s.Steady s := ⟨.refl s, fun _ h => h⟩

theorem Steady.trans (h : s.Steady t) (h' : t.Steady u) : s.Steady u :=
  ⟨h.extends_.trans h'.extends_, fun H hs => h'.sound H (h.sound H hs)⟩

theorem Steady.of_processes (h : t.processes = s.processes) : s.Steady t := by
  have hext : s.Extends t := fun i p hp => ⟨p, (process?_congr h i).trans hp, .refl p⟩
  exact ⟨hext, fun H hs i p hp => (hs i p ((process?_congr h i).symm.trans hp)).mono hext⟩

theorem Steady.put (hp : s.process? i = some p) (hpq : p.Extends q)
    (hq : ∀ H, s.Sound H → q.Sound H s i) : s.Steady (s.put i q) :=
  ⟨.put hp hpq, fun H hs => hs.put hp hpq (hq H hs)⟩

/-- Each input that is linked was allowed to ask for its mark: its key and the name of its process.
-/
def Allows (H : String → OutputRef → Prop) (t : Scene) : Prop :=
  ∀ i p key x r, t.process? i = some p → p.inputs.lookup key = some x → x.source? = some r →
    H (key ++ p.name) r

structure Linking (s t : Scene) : Prop where
  extends_ : s.Extends t
  sound : ∀ H, s.Sound H → t.Allows H → t.Sound H

theorem Steady.linking (h : s.Steady t) : s.Linking t := ⟨h.extends_, fun H hs _ => h.sound H hs⟩

theorem Linking.refl (s : Scene) : s.Linking s := (Steady.refl s).linking

theorem Steady.trans_linking (h : s.Steady t) (h' : t.Linking u) : s.Linking u :=
  ⟨h.extends_.trans h'.extends_, fun H hs hu => h'.sound H (h.sound H hs) hu⟩

end Scene

end Assembly

end WorkflowInference
