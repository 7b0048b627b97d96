import Unravel.Proofs.Engine.Pruning
import Unravel.Proofs.Pass.Locality

/-!
Methods that do not call each other, not even through others, can be cleaned in any order. Cleaning
a method reads the table only for what the method can call, and writes the body, the mark and the
events of its own token alone.
-/
namespace Unravel

/-- The tokens that code comes to by following calls through bodies that can be read. -/
inductive MethodTable.Calls (methods : MethodTable) (code : List Instr) : Token → Prop where
  | direct {i : Instr} {t : Token} (inside : i ∈ code) (calls : Inline.callee? i = some t) :
      Calls methods code t
  | through {t u : Token} {callee : Method} {body : Body} {i : Instr}
      (before : Calls methods code t) (resolved : methods.resolve? t = some callee)
      (readable : callee.readable? = some body) (inside : i ∈ body.instrs)
      (calls : Inline.callee? i = some u) : Calls methods code u

/-- A method comes to a token by following calls from its body. -/
def MethodTable.Reaches (methods : MethodTable) (token other : Token) : Prop :=
  ∃ m body, methods.get? token = some m ∧ m.readable? = some body ∧
    methods.Calls body.instrs other

def MethodTable.SameBut (token : Token) (methods methods' : MethodTable) : Prop :=
  ∀ other, other ≠ token → methods'.get? other = methods.get? other

namespace MethodTable
variable {methods methods' : MethodTable} {token other : Token} {code : List Instr}

theorem Calls.within {tokens : Token → Prop} (start : CallsIn tokens code)
    (closed : ∀ {t callee body}, tokens t → methods.resolve? t = some callee →
      callee.readable? = some body → CallsIn tokens body.instrs)
    (calls : methods.Calls code token) : tokens token := by
  induction calls with
  | direct inside calls => exact start _ inside _ calls
  | through _ resolved readable inside calls before =>
    exact closed before resolved readable _ inside _ calls

theorem SameBut.alikeOn (same : methods.SameBut token methods')
    (apart : ¬ methods.Calls code token) :
    methods.resolver.AlikeOn (methods.Calls code) methods'.resolver where
  same := by
    intro t calls
    have away : t ≠ token := by
      rintro rfl
      exact apart calls
    simp only [resolver, resolve?, same t away]
  closed before resolved readable _ inside _ calls := .through before resolved readable inside calls

theorem sameBut_setBody (methods : MethodTable) (token : Token) (body : Body) :
    methods.SameBut token (methods.setBody token body) := by
  intro other away
  rw [methods.rebodied_setBody token body other]
  simp [away]

theorem setBody_comm (methods : MethodTable) (apart : token ≠ other) (first second : Body) :
    (methods.setBody token first).setBody other second =
      (methods.setBody other second).setBody token first := by
  simp only [setBody, modify, List.map_map]
  congr 1
  refine List.map_congr_left fun m _ => ?_
  by_cases one : m.token = token
  · simp [one, apart]
  · by_cases two : m.token = other
    · simp [two, apart.symm]
    · simp [one, two]

end MethodTable

namespace Predicate
variable {tokens : Token → Prop} {methods methods' : Resolver}

theorem classify?_alike (alike : methods.AlikeOn tokens methods') {call : Instr}
    (calls : ∀ t, Inline.callee? call = some t → tokens t) :
    classify? methods' call = classify? methods call := by
  unfold classify?
  split
  · rfl
  · rename_i opcode
    refine Option.bind_congr fun ref named => ?_
    have callee : Inline.callee? call = some ref.token := by
      unfold Instr.method? at named
      split at named
      · rename_i operand
        cases named
        simp only [bne_iff_ne, not_not] at opcode
        simp only [Inline.callee?, opcode, operand]
      · cases named
    rw [alike.same _ (calls _ callee)]

theorem site?_alike (alike : methods.AlikeOn tokens methods') {call : Instr}
    (calls : ∀ t, Inline.callee? call = some t → tokens t) (test next : Instr) :
    site? methods' call test next = site? methods call test next := by
  simp only [site?, classify?_alike alike calls]

theorem callee?_settleTest (form : Form) (test : Instr) (fate : TestFate) :
    Inline.callee? (settleTest form test fate) = none := by
  cases fate <;> rfl

theorem scan_alike (alike : methods.AlikeOn tokens methods') (method : Token) (index : Nat)
    {previous : Instr} {rest : List Instr} (calls : CallsIn tokens (previous :: rest)) :
    scan methods' method index previous rest = scan methods method index previous rest ∧
      CallsIn tokens (scan methods method index previous rest).1 := by
  fun_induction scan methods method index previous rest with
  | case1 index previous test next rest form fate v site settled code events count scanned ih =>
    obtain ⟨first, later⟩ := CallsIn.cons_iff.mp calls
    obtain ⟨-, later⟩ := CallsIn.cons_iff.mp later
    have quiet : ∀ t, Inline.callee? settled = some t → tokens t := by
      intro t named
      rw [callee?_settleTest] at named
      cases named
    obtain ⟨same, after⟩ := ih (CallsIn.cons_iff.mpr ⟨quiet, later⟩)
    rw [scanned] at same after
    rw [scan, site?_alike alike first, site]
    dsimp only
    rw [same]
    refine ⟨rfl, CallsIn.cons_iff.mpr ⟨fun t named => ?_, after⟩⟩
    cases named
  | case2 index previous test next rest site code events count scanned ih =>
    obtain ⟨first, later⟩ := CallsIn.cons_iff.mp calls
    obtain ⟨same, after⟩ := ih later
    rw [scanned] at same after
    rw [scan, site?_alike alike first, site]
    dsimp only
    rw [same]
    exact ⟨rfl, CallsIn.cons_iff.mpr ⟨first, after⟩⟩
  | case3 index previous rest short =>
    refine ⟨?_, calls⟩
    rw [scan]
    exact short

theorem settle_alike (alike : methods.AlikeOn tokens methods') {body : Body}
    (calls : CallsIn tokens body.instrs) (method : Token) :
    settle methods' method body = settle methods method body ∧
      CallsIn tokens (settle methods method body).1.instrs := by
  unfold settle
  split
  · exact ⟨rfl, calls⟩
  · rename_i first rest code
    rw [code] at calls
    obtain ⟨same, after⟩ := scan_alike alike method 1 calls
    rw [same]
    exact ⟨rfl, after⟩

end Predicate

namespace Engine
variable {c : Config} {e e' : Engine} {methods methods' : MethodTable} {m : Method} {body : Body}
variable {token other : Token}

section Reading
variable {tokens : Token → Prop} {seen seen' : Resolver} (alike : seen.AlikeOn tokens seen')
include alike

theorem simplified_alike (calls : CallsIn tokens body.instrs) :
    simplified c seen' m body = simplified c seen m body ∧
      CallsIn tokens (simplified c seen m body).1.instrs := by
  unfold simplified
  split
  · obtain ⟨same, calls⟩ := Predicate.settle_alike alike calls m.token
    rw [Predicate.simplify, same]
    exact ⟨rfl, calls⟩
  · exact ⟨rfl, calls⟩

theorem transform_alike (calls : CallsIn tokens body.instrs) :
    transform c seen' m body = transform c seen m body := by
  obtain ⟨same, calls⟩ := simplified_alike (c := c) (m := m) alike calls
  unfold transform
  rw [same]
  cases cut : (simplified c seen m body).1.toGraph with
  | error cause => simp only [cut, bind, Except.bind]
  | ok g =>
    have each : ∀ p ∈ (Schedule.ofConfig c).passes,
        Schedule.Local tokens ⟨m, seen, c⟩ seen' p := Schedule.local_ofConfig alike c
    have ran : (Schedule.ofConfig c).run ⟨m, seen', c⟩ g =
        (Schedule.ofConfig c).run ⟨m, seen, c⟩ g :=
      Schedule.runRounds_alike each c.maxIterations 0 (Body.toGraph_callsIn calls cut)
    simp only [cut, ran, bind, Except.bind]

end Reading

/-- Ask for the method with a token as the table holds it. A failure changes nothing. -/
def ask (e : Engine) (methods : MethodTable) (token : Token) :
    Option (Except Error Outcome) × Engine × MethodTable :=
  match methods.get? token with
  | none => (none, e, methods)
  | some m =>
    match e.cleanMethod methods m with
    | .ok (outcome, e', methods') => (some (.ok outcome), e', methods')
    | .error cause => (some (.error cause), e, methods)

/-- What asking for a token does, whatever else the engine and the table hold. -/
structure Effect where
  answer : Option (Except Error Outcome)
  marks : Bool := false
  events : Journal := []
  body : Option Body := none

namespace Effect

def engine (f : Effect) (token : Token) (e : Engine) : Engine :=
  { e with
    registry := if f.marks then e.registry.mark token taken else e.registry
    journal := e.journal ++ f.events }

def table (f : Effect) (token : Token) (methods : MethodTable) : MethodTable :=
  match f.body with
  | none => methods
  | some body => methods.setBody token body

def ofRun (m : Method) : Except Error (Body × Journal) → Effect
  | .ok (written, events) =>
    { answer := some (.ok .transformed)
      marks := true
      events := events ++ [{ kind := .codeRegenerated, method := some m.token }]
      body := some written }
  | .error cause =>
    { answer := some (.ok .aborted)
      marks := true
      events := [{ kind := .warning, method := some m.token
                   message := m.fullName ++ ": " ++ cause.message }] }

def Own (token : Token) (f : Effect) : Prop := ∀ event ∈ f.events, event.method = some token

theorem own_answer (answer : Option (Except Error Outcome)) : Own token { answer } :=
  fun _ inside => absurd inside List.not_mem_nil

theorem own_ofRun (c : Config) (methods : MethodTable) (m : Method) (body : Body) :
    (ofRun m (transform c methods m body)).Own m.token := by
  cases ran : transform c methods m body with
  | error cause =>
    intro event inside
    rw [List.mem_singleton.mp inside]
  | ok result =>
    refine List.forall_mem_append.mpr ⟨fun event inside => ?_, fun event inside => ?_⟩
    · exact (transform_inside ran event inside).own
    · rw [List.mem_singleton.mp inside]

variable {f g : Effect}

theorem table_comm (f g : Effect) (methods : MethodTable) (apart : token ≠ other) :
    g.table other (f.table token methods) = f.table token (g.table other methods) := by
  unfold table
  cases f.body with
  | none => rfl
  | some first =>
    cases g.body with
    | none => rfl
    | some second => exact methods.setBody_comm apart first second

theorem flags_engine (f : Effect) (e : Engine) (token t : Token) :
    (f.engine token e).registry.flags t =
      if f.marks ∧ t = token then e.registry.flags t ||| taken else e.registry.flags t := by
  cases marks : f.marks with
  | false => simp [engine, marks]
  | true => simp [engine, marks, Registry.flags_mark]

theorem flags_comm (f g : Effect) (e : Engine) (apart : token ≠ other) (t : Token) :
    (g.engine other (f.engine token e)).registry.flags t =
      (f.engine token (g.engine other e)).registry.flags t := by
  simp only [flags_engine]
  by_cases one : t = token
  · simp [one, apart]
  · simp [one]

theorem Own.ofMethod (own : f.Own token) (away : other ≠ token) :
    Journal.ofMethod f.events other = [] := by
  refine List.filter_eq_nil_iff.mpr fun event inside => ?_
  rw [own event inside]
  simpa using away.symm

theorem Own.comm (ownF : f.Own token) (ownG : g.Own other) (e : Engine) (apart : token ≠ other)
    (t : Token) :
    (g.engine other (f.engine token e)).journal.ofMethod t =
      (f.engine token (g.engine other e)).journal.ofMethod t := by
  have parts : ∀ a b c : Journal, Journal.ofMethod (a ++ b ++ c) t =
      a.ofMethod t ++ b.ofMethod t ++ c.ofMethod t := by
    intro a b c
    simp only [Journal.ofMethod, List.filter_append]
  simp only [engine, parts]
  by_cases one : t = token
  · subst one
    rw [ownG.ofMethod apart, List.append_nil, List.append_nil]
  · rw [ownF.ofMethod one, List.append_nil, List.append_nil]

end Effect

/-- Asking for a token reads the same from two engines and tables. -/
structure ReadsAlike (token : Token) (e : Engine) (methods : MethodTable) (e' : Engine)
    (methods' : MethodTable) : Prop where
  config : e'.config = e.config
  marks : e'.registry.check token taken = e.registry.check token taken
  held : methods'.get? token = methods.get? token
  code : ∀ m body, methods.get? token = some m → m.readable? = some body →
    transform e.config methods' m body = transform e.config methods m body

def Asks (f : Effect) (token : Token) (e : Engine) (methods : MethodTable) : Prop :=
  e.ask methods token = (f.answer, f.engine token e, f.table token methods)

theorem asks_idle {answer : Option (Except Error Outcome)}
    (idle : e.ask methods token = (answer, e, methods)) : Asks { answer } token e methods := by
  rw [Asks, idle]
  simp [Effect.engine, Effect.table]

theorem asks_ofRun (held : methods.get? m.token = some m) (whole : m.broken = false)
    (has : m.code? = some body) (free : e.registry.check m.token taken = false) :
    Asks (.ofRun m (transform e.config methods m body)) m.token e methods := by
  have passes : e.gate? m =
      some (body, { e with registry := e.registry.mark m.token taken }) := by
    simp only [gate?, has, Registry.take, free, Bool.not_false]
  simp only [Asks, ask, held, cleanMethod, cleaned, whole, Bool.false_eq_true, if_false, passes,
    bind, Except.bind, pure, Except.pure]
  cases transform e.config methods m body <;> rfl

theorem asks_skipped (held : methods.get? m.token = some m) (whole : m.broken = false)
    (idle : m.code? = none ∨ e.registry.check m.token taken = true) :
    Asks { answer := some (.ok .skipped) } m.token e methods := by
  have stops : e.gate? m = none := by
    unfold gate? Registry.take
    rcases idle with lacks | busy
    · rw [lacks]
    · rw [busy]
      cases m.code? <;> rfl
  refine asks_idle ?_
  simp [ask, held, cleanMethod, cleaned, whole, stops, bind, Except.bind, pure, Except.pure]

theorem exists_effect (e : Engine) (methods : MethodTable) (token : Token) :
    ∃ f : Effect, f.Own token ∧
      ∀ {e' methods'}, ReadsAlike token e methods e' methods' → Asks f token e' methods' := by
  cases held : methods.get? token with
  | none =>
    refine ⟨{ answer := none }, Effect.own_answer none, fun reads => asks_idle ?_⟩
    rw [ask, reads.held, held]
  | some m =>
    have named : m.token = token := (MethodTable.get?_some held).2
    subst named
    cases whole : m.broken with
    | true =>
      refine ⟨{ answer := some (.error .locked) }, Effect.own_answer _, fun reads => asks_idle ?_⟩
      simp only [ask, reads.held, held, cleanMethod, cleaned, whole, if_true, bind, Except.bind]
    | false =>
      by_cases idle : m.code? = none ∨ e.registry.check m.token taken = true
      · refine ⟨{ answer := some (.ok .skipped) }, Effect.own_answer _, fun reads =>
          asks_skipped (reads.held.trans held) whole ?_⟩
        rwa [reads.marks]
      · rw [not_or, Bool.not_eq_true] at idle
        obtain ⟨body, has⟩ := Option.ne_none_iff_exists'.mp idle.1
        have readable : m.readable? = some body := by
          simp [Method.readable?, whole, (code?_some has).1]
        refine ⟨_, Effect.own_ofRun e.config methods m body, fun reads => ?_⟩
        rw [← reads.code m body held readable, ← reads.config]
        exact asks_ofRun (reads.held.trans held) whole has (reads.marks.trans idle.2)

theorem Effect.reads (f : Effect) (e : Engine) (methods : MethodTable) (apart : other ≠ token)
    (away : ¬ methods.Reaches other token) :
    ReadsAlike other e methods (f.engine token e) (f.table token methods) := by
  have same : methods.SameBut token (f.table token methods) := by
    unfold Effect.table
    cases f.body with
    | none => exact fun _ _ => rfl
    | some body => exact methods.sameBut_setBody token body
  refine ⟨rfl, ?_, same other apart, fun m body held readable => ?_⟩
  · simp only [Registry.check, flags_engine, apart, and_false, if_false]
  · have apart : ¬ methods.Calls body.instrs token :=
      fun calls => away ⟨m, body, held, readable, calls⟩
    exact transform_alike (same.alikeOn apart) fun i inside t calls => .direct inside calls

/-- Methods that do not come to each other can be asked for in either order. -/
theorem ask_commutes (e : Engine) (methods : MethodTable) {first second : Token}
    (apart : first ≠ second) (aside : ¬ methods.Reaches first second)
    (away : ¬ methods.Reaches second first) :
    ∃ answer answer' e₁ e₂ e₁₂ e₂₁ methods₁ methods₂ last,
      e.ask methods first = (answer, e₁, methods₁) ∧
      e₁.ask methods₁ second = (answer', e₁₂, last) ∧
      e.ask methods second = (answer', e₂, methods₂) ∧
      e₂.ask methods₂ first = (answer, e₂₁, last) ∧
      (∀ t, e₁₂.registry.flags t = e₂₁.registry.flags t) ∧
      ∀ t, e₁₂.journal.ofMethod t = e₂₁.journal.ofMethod t := by
  obtain ⟨f, ownF, asksF⟩ := exists_effect e methods first
  obtain ⟨g, ownG, asksG⟩ := exists_effect e methods second
  have still : ∀ token, ReadsAlike token e methods e methods :=
    fun _ => ⟨rfl, rfl, rfl, fun _ _ _ _ => rfl⟩
  have late := asksF (g.reads e methods apart aside)
  rw [Asks, ← Effect.table_comm f g methods apart] at late
  exact ⟨_, _, _, _, _, _, _, _, _, asksF (still first), asksG (f.reads e methods apart.symm away),
    asksG (still second), late, Effect.flags_comm f g e apart, ownF.comm ownG e apart⟩

def returner : Method where
  token := .methodDef 4
  returnType := "System.Int32"
  body := some (.ofCode [⟨0, .ldcI4S, .immediate (.int8 5#8), 0⟩,
    ⟨1, .ldcI4S, .immediate (.int8 3#8), 2⟩, ⟨2, .call, .method Inline.masker.ref, 4⟩,
    ⟨3, .ret, .none, 9⟩] [])

def sharedTable : MethodTable :=
  ⟨[{ body := some calledTest }, Inline.adder, Inline.masker, returner]⟩

theorem closed_sharedTable {t : Token} {callee : Method} {body : Body}
    (inside : t ∈ [Inline.adder.token, Inline.masker.token])
    (resolved : sharedTable.resolve? t = some callee) (readable : callee.readable? = some body) :
    CallsIn (· ∈ [Inline.adder.token, Inline.masker.token]) body.instrs := by
  rcases List.mem_pair.mp inside with rfl | rfl
  · cases resolved
    cases readable
    decide
  · cases resolved
    cases readable
    decide

theorem sharedTable_ask_commutes :
    ¬ sharedTable.Reaches (.methodDef 1) (.methodDef 4) ∧
      ¬ sharedTable.Reaches (.methodDef 4) (.methodDef 1) ∧
      (({} : Engine).ask sharedTable (.methodDef 1)).1 = some (.ok .transformed) ∧
      (({} : Engine).ask sharedTable (.methodDef 4)).1 = some (.ok .transformed) ∧
      ∃ answer answer' e₁ e₂ e₁₂ e₂₁ methods₁ methods₂ last,
        ({} : Engine).ask sharedTable (.methodDef 1) = (answer, e₁, methods₁) ∧
        e₁.ask methods₁ (.methodDef 4) = (answer', e₁₂, last) ∧
        ({} : Engine).ask sharedTable (.methodDef 4) = (answer', e₂, methods₂) ∧
        e₂.ask methods₂ (.methodDef 1) = (answer, e₂₁, last) ∧
        (∀ t, e₁₂.registry.flags t = e₂₁.registry.flags t) ∧
        ∀ t, e₁₂.journal.ofMethod t = e₂₁.journal.ofMethod t := by
  have aside : ¬ sharedTable.Reaches (.methodDef 1) (.methodDef 4) := by
    rintro ⟨m, body, ⟨⟩, ⟨⟩, calls⟩
    exact absurd (calls.within (by decide) closed_sharedTable) (by decide)
  have away : ¬ sharedTable.Reaches (.methodDef 4) (.methodDef 1) := by
    rintro ⟨m, body, ⟨⟩, ⟨⟩, calls⟩
    exact absurd (calls.within (by decide) closed_sharedTable) (by decide)
  exact ⟨aside, away, by decide +kernel, by decide +kernel,
    ask_commutes {} sharedTable (by decide) aside away⟩

end Engine
end Unravel
