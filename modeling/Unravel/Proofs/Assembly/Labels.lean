import Unravel.Proofs.Assembly.Calls
import Unravel.Proofs.Body.Narrowing
import Unravel.Proofs.Graph.Leaders

/-!
Labels looked up. A label stands for the number of instructions emitted before its first definition,
wherever it is used. There is a body if no label is missing and none that has to name an instruction
stands behind the last one. All that the body names is in it then, so it can be cut into blocks
unless control runs out of its end.
-/
namespace Unravel

inductive Pending.Resolves (leads : String → InstrId → Prop) : Pending → Operand → Prop where
  | ready (operand : Operand) : Resolves leads (.ready operand) operand
  | label {name : String} {id : InstrId} (found : leads name id) :
      Resolves leads (.label name) (.target id)
  | labels {names : List String} {ids : List InstrId} (found : List.Forall₂ leads names ids) :
      Resolves leads (.labels names) (.switch ids)

structure LabelledClause.Resolves (leads : String → InstrId → Prop)
    (ends : String → Option InstrId → Prop) (c : LabelledClause) (d : Clause) : Prop where
  flags : d.flags = c.flags
  catchType : d.catchType = c.catchType
  tryStart : leads c.tryStart d.tryStart
  tryEnd : ends c.tryEnd d.tryEnd
  handlerStart : leads c.handlerStart d.handlerStart
  handlerEnd : ends c.handlerEnd d.handlerEnd
  filterStart : Option.Rel leads c.filterStart d.filterStart

def Pending.names : Pending → List String
  | .ready _ => []
  | .label name => [name]
  | .labels names => names

def LabelledClause.starts (c : LabelledClause) : List String :=
  c.tryStart :: c.handlerStart :: c.filterStart.toList

def LabelledClause.stops (c : LabelledClause) : List String := [c.tryEnd, c.handlerEnd]

theorem optionMapM_ok_iff {ε α β : Type} {f : α → Except ε β} {x : Option α} {y : Option β} :
    x.mapM f = .ok y ↔ Option.Rel (fun a b => f a = .ok b) x y := by
  cases x with
  | none => cases y <;> simp [pure, Except.pure]
  | some a =>
    cases found : f a <;> cases y <;> simp [found, Except.map, Functor.map]

namespace Assembler
variable {a : Assembler} {calls : List Call} {name : String} {n : Nat}

theorem position_ok : a.position name = .ok n ↔ a.labels.lookup name = some n := by
  unfold position
  cases a.labels.lookup name <;> simp

theorem resolve_ok {id : InstrId} :
    a.resolve name = .ok id ↔ a.labels.lookup name = some id ∧ id < a.code.length := by
  simp only [resolve, bind_ok_iff, position_ok]
  constructor
  · rintro ⟨n, found, done⟩
    split at done
    · cases done
      exact ⟨found, ‹_›⟩
    · cases done
  · rintro ⟨found, inside⟩
    exact ⟨id, found, if_pos inside⟩

theorem resolveEnd_ok {id : Option InstrId} :
    a.resolveEnd name = .ok id ↔ ∃ n, a.labels.lookup name = some n ∧
      id = if n < a.code.length then some n else none := by
  simp only [resolveEnd, bind_ok_iff, position_ok, pure, Except.pure, Except.ok.injEq]
  exact exists_congr fun n => and_congr_right' eq_comm

theorem resolveOperand_ok {p : Pending} {operand : Operand} :
    a.resolveOperand p = .ok operand ↔
      p.Resolves (fun name id => a.resolve name = .ok id) operand := by
  constructor
  · intro done
    cases p with
    | ready o =>
      cases done
      exact .ready _
    | label name =>
      obtain ⟨id, found, rfl⟩ := map_ok_iff.mp done
      exact .label found
    | labels names =>
      obtain ⟨ids, found, rfl⟩ := map_ok_iff.mp done
      exact .labels (mapM_ok_iff.mp found)
  · rintro (_ | found | found)
    · rfl
    · exact map_ok_iff.mpr ⟨_, found, rfl⟩
    · exact map_ok_iff.mpr ⟨_, mapM_ok_iff.mpr found, rfl⟩

theorem resolveClause_ok {c : LabelledClause} {d : Clause} :
    a.resolveClause c = .ok d ↔ c.Resolves (fun name id => a.resolve name = .ok id)
      (fun name id => a.resolveEnd name = .ok id) d := by
  simp only [resolveClause, bind_ok_iff, optionMapM_ok_iff]
  constructor
  · rintro ⟨tryStart, h1, tryEnd, h2, handlerStart, h3, handlerEnd, h4, filterStart, h5, done⟩
    cases done
    exact ⟨rfl, rfl, h1, h2, h3, h4, h5⟩
  · rintro ⟨flags, catchType, h1, h2, h3, h4, h5⟩
    refine ⟨_, h1, _, h2, _, h3, _, h4, _, h5, ?_⟩
    rw [← flags, ← catchType]
    rfl

theorem resolveCode_ok {code : List (Opcode × Pending)} {start : InstrId} {instrs : List Instr}
    (done : a.resolveCode start code = .ok instrs) :
    instrs.map Instr.id = List.range' start code.length ∧
      List.Forall₂ (fun x i => i.opcode = x.1 ∧ a.resolveOperand x.2 = .ok i.operand)
        code instrs := by
  induction code generalizing start instrs with
  | nil =>
    cases done
    exact ⟨rfl, .nil⟩
  | cons x rest ih =>
    obtain ⟨operand, found, done⟩ := bind_ok_iff.mp done
    obtain ⟨later, resolved, done⟩ := bind_ok_iff.mp done
    cases done
    obtain ⟨ids, same⟩ := ih resolved
    exact ⟨by rw [List.map_cons, ids, List.length_cons, List.range'_succ],
      .cons ⟨rfl, found⟩ same⟩

theorem exists_resolveCode (a : Assembler) (start : InstrId) (code : List (Opcode × Pending)) :
    (∃ instrs, a.resolveCode start code = .ok instrs) ↔
      ∀ x ∈ code, ∃ operand, a.resolveOperand x.2 = .ok operand := by
  induction code generalizing start with
  | nil => exact ⟨fun _ => List.forall_mem_nil _, fun _ => ⟨[], rfl⟩⟩
  | cons x rest ih =>
    rw [List.forall_mem_cons, ← ih (start + 1)]
    constructor
    · rintro ⟨instrs, done⟩
      obtain ⟨operand, found, done⟩ := bind_ok_iff.mp done
      obtain ⟨later, resolved, -⟩ := bind_ok_iff.mp done
      exact ⟨⟨operand, found⟩, later, resolved⟩
    · rintro ⟨⟨operand, found⟩, later, resolved⟩
      exact ⟨_, bind_ok_iff.mpr ⟨operand, found, bind_ok_iff.mpr ⟨later, resolved, rfl⟩⟩⟩

theorem finish_ok {body : Body} :
    a.finish = .ok body ↔ ∃ instrs clauses, a.resolveCode 0 a.code = .ok instrs ∧
      List.Forall₂ (fun c d => a.resolveClause c = .ok d) a.clauses clauses ∧
      body = { instrs := place 0 instrs, clauses, maxStack := a.maxStack, locals := a.locals,
               nextId := freshId instrs } := by
  simp only [finish, bind_ok_iff, mapM_ok_iff, pure, Except.pure, Except.ok.injEq]
  constructor
  · rintro ⟨instrs, resolved, clauses, bounded, rfl⟩
    exact ⟨instrs, clauses, resolved, bounded, rfl⟩
  · rintro ⟨instrs, clauses, resolved, bounded, rfl⟩
    exact ⟨instrs, resolved, clauses, bounded, rfl⟩

end Assembler

theorem exists_forall₂_iff {α β : Type} {R : α → β → Prop} {xs : List α} :
    (∃ ys, List.Forall₂ R xs ys) ↔ ∀ x ∈ xs, ∃ y, R x y := by
  induction xs with
  | nil => exact ⟨fun _ => List.forall_mem_nil _, fun _ => ⟨[], .nil⟩⟩
  | cons x rest ih =>
    rw [List.forall_mem_cons, ← ih]
    constructor
    · rintro ⟨_, _ | ⟨here, later⟩⟩
      exact ⟨⟨_, here⟩, _, later⟩
    · rintro ⟨⟨y, here⟩, ys, later⟩
      exact ⟨y :: ys, .cons here later⟩

section Lookups
variable {leads : String → InstrId → Prop} {ends : String → Option InstrId → Prop}

theorem Pending.exists_resolves {p : Pending} :
    (∃ operand, p.Resolves leads operand) ↔ ∀ name ∈ p.names, ∃ id, leads name id := by
  cases p with
  | ready operand => exact ⟨fun _ => List.forall_mem_nil _, fun _ => ⟨operand, .ready operand⟩⟩
  | label name =>
    rw [names, List.forall_mem_singleton]
    constructor
    · rintro ⟨_, _ | found⟩
      exact ⟨_, found⟩
    · rintro ⟨id, found⟩
      exact ⟨_, .label found⟩
  | labels names =>
    rw [Pending.names, ← exists_forall₂_iff]
    constructor
    · rintro ⟨_, _ | _ | found⟩
      exact ⟨_, found⟩
    · rintro ⟨ids, found⟩
      exact ⟨_, .labels found⟩

theorem LabelledClause.exists_resolves {c : LabelledClause} :
    (∃ d, c.Resolves leads ends d) ↔
      (∀ name ∈ c.starts, ∃ id, leads name id) ∧ ∀ name ∈ c.stops, ∃ id, ends name id := by
  constructor
  · rintro ⟨d, resolves⟩
    refine ⟨?_, ?_⟩
    · simp only [starts, List.forall_mem_cons, Option.mem_toList]
      refine ⟨⟨_, resolves.tryStart⟩, ⟨_, resolves.handlerStart⟩, fun name filter => ?_⟩
      have found := resolves.filterStart
      rw [filter] at found
      generalize d.filterStart = f at found
      cases found with
      | some found => exact ⟨_, found⟩
    · simp only [stops, List.forall_mem_cons]
      exact ⟨⟨_, resolves.tryEnd⟩, ⟨_, resolves.handlerEnd⟩, List.forall_mem_nil _⟩
  · simp only [starts, stops, List.forall_mem_cons, Option.mem_toList]
    rintro ⟨⟨⟨s, tryStart⟩, ⟨h, handlerStart⟩, filter⟩, ⟨e, tryEnd⟩, ⟨e', handlerEnd⟩, -⟩
    obtain ⟨f, filterStart⟩ : ∃ f, Option.Rel leads c.filterStart f := by
      cases filtered : c.filterStart with
      | none => exact ⟨none, .none⟩
      | some name =>
        obtain ⟨f, found⟩ := filter name filtered
        exact ⟨some f, .some found⟩
    exact ⟨⟨c.flags, s, e, h, e', f, c.catchType⟩, rfl, rfl, tryStart, tryEnd, handlerStart,
      handlerEnd, filterStart⟩

end Lookups

namespace Assembler
variable {a : Assembler} {calls : List Call} {name : String} {n : Nat} {body : Body}

def Leads (calls : List Call) (name : String) (id : InstrId) : Prop :=
  Marks calls name id ∧ id < (emissions calls).length

/-- The first instruction emitted after a label at which a range ends; there may be none. -/
def Ends (calls : List Call) (name : String) (id : Option InstrId) : Prop :=
  ∃ n, Marks calls name n ∧ id = if n < (emissions calls).length then some n else none

def aims (calls : List Call) : List String :=
  (emissions calls).flatMap (fun x => x.2.names) ++
    (calls.filterMap Call.clause?).flatMap LabelledClause.starts

def stops (calls : List Call) : List String :=
  (calls.filterMap Call.clause?).flatMap LabelledClause.stops

/-- The body that some calls make. -/
structure Assembles (calls : List Call) (body : Body) : Prop where
  ids : body.instrs.map Instr.id = List.range (emissions calls).length
  code : List.Forall₂ (fun x i => i.opcode = x.1 ∧ x.2.Resolves (Leads calls) i.operand)
    (emissions calls) body.instrs
  offsets : Placed body.instrs
  clauses : List.Forall₂ (fun c d => c.Resolves (Leads calls) (Ends calls) d)
    (calls.filterMap Call.clause?) body.clauses
  locals : body.locals = latest Call.locals? 0 calls
  maxStack : body.maxStack = latest Call.maxStack? 8 calls

theorem Tracks.resolve (tracks : Tracks calls a) :
    (fun name id => a.resolve name = .ok id) = Leads calls := by
  funext name id
  rw [resolve_ok, tracks.labels, tracks.code]
  rfl

theorem Tracks.resolveEnd (tracks : Tracks calls a) :
    (fun name id => a.resolveEnd name = .ok id) = Ends calls := by
  funext name id
  simp only [resolveEnd_ok, tracks.labels, tracks.code, Ends]

theorem exists_ends : (∃ id, Ends calls name id) ↔ .label name ∈ calls := by
  rw [← exists_marks]
  constructor
  · rintro ⟨-, n, marks, -⟩
    exact ⟨n, marks⟩
  · rintro ⟨n, marks⟩
    exact ⟨_, n, marks, rfl⟩

theorem Tracks.exists_finish (tracks : Tracks calls a) :
    (∃ body, a.finish = .ok body) ↔
      (∀ name ∈ aims calls, ∃ id, Leads calls name id) ∧
        ∀ name ∈ stops calls, .label name ∈ calls := by
  have code : (∃ instrs, a.resolveCode 0 a.code = .ok instrs) ↔
      ∀ x ∈ emissions calls, ∀ name ∈ x.2.names, ∃ id, Leads calls name id := by
    simp only [exists_resolveCode, resolveOperand_ok, tracks.resolve, Pending.exists_resolves,
      tracks.code]
  have clauses : (∃ clauses, List.Forall₂ (fun c d => a.resolveClause c = .ok d) a.clauses clauses)
      ↔ ∀ c ∈ calls.filterMap Call.clause?, (∀ name ∈ c.starts, ∃ id, Leads calls name id) ∧
        ∀ name ∈ c.stops, .label name ∈ calls := by
    simp only [exists_forall₂_iff, resolveClause_ok, tracks.resolve, tracks.resolveEnd,
      LabelledClause.exists_resolves, exists_ends, tracks.clauses]
  have both : (∃ body, a.finish = .ok body) ↔ (∃ instrs, a.resolveCode 0 a.code = .ok instrs) ∧
      ∃ clauses, List.Forall₂ (fun c d => a.resolveClause c = .ok d) a.clauses clauses := by
    simp only [finish_ok]
    constructor
    · rintro ⟨-, instrs, clauses, resolved, bounded, -⟩
      exact ⟨⟨instrs, resolved⟩, clauses, bounded⟩
    · rintro ⟨⟨instrs, resolved⟩, clauses, bounded⟩
      exact ⟨_, instrs, clauses, resolved, bounded, rfl⟩
  simp only [both, code, clauses, forall₂_and, aims, stops, List.forall_mem_append, and_assoc,
    List.forall_mem_flatMap]

theorem forall₂_place {α : Type} {R : α → Instr → Prop}
    (still : ∀ {x i}, R x i → ∀ offset, R x { i with offset }) {xs : List α} {instrs : List Instr}
    (all : List.Forall₂ R xs instrs) (start : Nat) : List.Forall₂ R xs (place start instrs) := by
  induction all generalizing start with
  | nil => exact .nil
  | cons here _ ih => exact .cons (still here start) (ih _)

theorem Tracks.assembles (tracks : Tracks calls a) (done : a.finish = .ok body) :
    Assembles calls body := by
  obtain ⟨instrs, clauses, resolved, bounded, rfl⟩ := finish_ok.mp done
  obtain ⟨ids, same⟩ := resolveCode_ok resolved
  simp only [resolveOperand_ok, tracks.resolve, tracks.code] at same
  simp only [resolveClause_ok, tracks.resolve, tracks.resolveEnd, tracks.clauses] at bounded
  rw [tracks.code] at ids
  exact {
    ids := by rw [map_id_place, ids, List.range_eq_range']
    code := forall₂_place (fun resolves _ => resolves) same 0
    offsets := placed_place instrs
    clauses := bounded
    locals := tracks.locals
    maxStack := tracks.maxStack }

def Call.Labelled : Call → Prop
  | .emit name operand =>
    ∀ op ∈ Opcode.ofMnemonic? name, operand.fits op = true → op.flow.isJump = false
  | _ => True

instance : DecidablePred Call.Labelled
  | .emit name operand => inferInstanceAs (Decidable (∀ op ∈ Opcode.ofMnemonic? name,
      operand.fits op = true → op.flow.isJump = false))
  | .branch .. | .switch _ | .call .. | .loadArgument _ | .loadLocal _ | .storeLocal _ | .loadInt _
  | .label _ | .clause _ | .locals _ | .maxStack _ => .isTrue trivial

def Labelled (calls : List Call) : Prop := ∀ c ∈ calls, c.Labelled

instance : Decidable (Labelled calls) := inferInstanceAs (Decidable (∀ c ∈ calls, c.Labelled))

theorem not_jump_of_method {op : Opcode} {m : MethodRef}
    (fits : (Operand.method m).fits op = true) : op.flow.isJump = false := by
  cases op with
  | br form | leave form | branch _ form => cases form <;> cases fits
  | switch => cases fits
  | _ => rfl

theorem not_jump_of_ready (labelled : Labelled calls) {op : Opcode} {operand : Operand}
    (inside : (op, .ready operand) ∈ emissions calls) : op.flow.isJump = false := by
  obtain ⟨c, listed, made⟩ := List.mem_filterMap.mp inside
  cases c with
  | emit name o =>
    simp only [Call.made?, Option.map_eq_some_iff, Option.filter_eq_some_iff] at made
    obtain ⟨op, ⟨found, fits⟩, ⟨⟩⟩ := made
    exact labelled _ listed op found fits
  | call name callee =>
    simp only [Call.made?, Option.map_eq_some_iff, Option.filter_eq_some_iff] at made
    obtain ⟨op, ⟨found, fits⟩, ⟨⟩⟩ := made
    exact not_jump_of_method fits
  | branch name label =>
    obtain ⟨op, -, ⟨⟩⟩ := Option.map_eq_some_iff.mp made
  | switch labels =>
    simp only [Call.made?] at made
    split at made <;> cases made
  | loadArgument n | loadLocal n | storeLocal n =>
    cases made
    rfl
  | loadInt v =>
    cases made
    unfold loadInt32
    dsimp only
    split
    · rfl
    · split <;> rfl
  | label | clause | locals | maxStack => cases made

namespace Assembles

theorem mem_ids (made : Assembles calls body) {id : InstrId} :
    id ∈ body.instrs.map Instr.id ↔ id < (emissions calls).length := by
  rw [made.ids]
  exact List.mem_range

theorem targets (made : Assembles calls body) (labelled : Labelled calls) {i : Instr}
    (inside : i ∈ body.instrs) : ∀ t ∈ i.targets, t ∈ body.instrs.map Instr.id := by
  obtain ⟨⟨op, p⟩, listed, same, resolves⟩ := exists_of_forall₂_mem made.code.flip inside
  intro t goes
  rw [made.mem_ids]
  unfold Instr.targets at goes
  generalize i.operand = operand at resolves goes
  cases resolves with
  | ready =>
    have plain : i.flow.isJump = false := by
      rw [Instr.flow, same]
      exact not_jump_of_ready labelled listed
    split at goes
    · simp [Instr.isJump, plain] at goes
    · split at goes
      · rename_i op
        rw [Instr.flow, op] at plain
        cases plain
      · cases goes
    · cases goes
  | label found =>
    dsimp only at goes
    split at goes
    · obtain rfl := List.mem_singleton.mp goes
      exact found.2
    · cases goes
  | labels found =>
    dsimp only at goes
    split at goes
    · obtain ⟨name, -, leads⟩ := exists_of_forall₂_mem found.flip goes
      exact leads.2
    · cases goes

theorem bounds (made : Assembles calls body) {d : Clause} (inside : d ∈ body.clauses) :
    ∀ t ∈ d.bounds, t ∈ body.instrs.map Instr.id := by
  obtain ⟨c, -, resolves⟩ := exists_of_forall₂_mem made.clauses.flip inside
  have stops : ∀ {name stop}, Ends calls name stop → ∀ t, stop = some t →
      t < (emissions calls).length := by
    rintro name stop ⟨n, -, rfl⟩ t same
    split at same
    · cases same
      assumption
    · cases same
  intro t bound
  rw [made.mem_ids]
  simp only [Clause.bounds, List.mem_filterMap, List.mem_cons, List.not_mem_nil, or_false,
    id_eq] at bound
  obtain ⟨stop, rfl | rfl | rfl | rfl | rfl, same⟩ := bound
  · cases same
    exact resolves.tryStart.2
  · exact stops resolves.tryEnd t same
  · cases same
    exact resolves.handlerStart.2
  · exact stops resolves.handlerEnd t same
  · have found := resolves.filterStart
    rw [same] at found
    generalize c.filterStart = f at found
    cases found with
    | some found => exact found.2

theorem exists_graph (made : Assembles calls body) (labelled : Labelled calls) :
    (∃ g, body.toGraph = .ok g) ↔ body.instrs ≠ [] ∧
      ∀ last, body.instrs.getLast? = some last →
        last.flow ≠ .conditional ∧ last.flow ≠ .switch := by
  constructor
  · rintro ⟨g, done⟩
    obtain ⟨-, -, -, fit⟩ := Body.leaders_of_toGraph done
    exact ⟨fit.filled, fit.ends⟩
  · rintro ⟨filled, ends⟩
    exact Body.toGraph_accepts filled
      (fun i inside t goes => Body.exists_index_iff.mpr (made.targets labelled inside t goes))
      (fun d inside t bound => Body.exists_index_iff.mpr (made.bounds inside t bound)) ends

end Assembles

/-- For calls of any kind in any order, those that fail included: each label that is used has to be
    defined, and those that are to name an instruction have to be followed by one. Then there is a
    body, which has the instructions emitted under the ids answered, and names the first instruction
    emitted behind the definition of a label wherever that label is used. Calls that fail might as
    well not have been made. If branches are emitted with labels, the body has a graph unless it is
    empty or ends in a branch or a switch that may fall. -/
theorem calls_assemble (calls : List Call) :
    ((∃ body, (run {} calls).2.finish = .ok body) ↔
      (∀ name ∈ aims calls, ∃ id, Leads calls name id) ∧
        ∀ name ∈ stops calls, .label name ∈ calls) ∧
    (∀ body, (run {} calls).2.finish = .ok body → Assembles calls body) ∧
    ((run {} calls).1.map Prod.fst = calls ∧
      (run {} calls).1.filterMap idOf = List.range (emissions calls).length ∧
      ∀ x ∈ (run {} calls).1, ∀ id, idOf x = some id →
        ∃ made, x.1.made? = some made ∧ (emissions calls)[id]? = some made) ∧
    run {} (kept (run {} calls).1) = ((run {} calls).1.filter wentWell, (run {} calls).2) ∧
    (Labelled calls → ∀ body, (run {} calls).2.finish = .ok body →
      ((∃ g, body.toGraph = .ok g) ↔ body.instrs ≠ [] ∧
        ∀ last, body.instrs.getLast? = some last →
          last.flow ≠ .conditional ∧ last.flow ≠ .switch)) := by
  have tracks : Tracks calls (run {} calls).2 := tracks_start.run calls
  refine ⟨tracks.exists_finish, fun body done => tracks.assembles done,
    ⟨calls_run {} calls, ?_, ?_⟩, run_kept {} calls,
    fun labelled body done => (tracks.assembles done).exists_graph labelled⟩
  · rw [List.range_eq_range']
    exact ids_run {} calls
  · intro x inside id named
    obtain ⟨n, made, rfl, code, there⟩ := emission_of_id inside named
    exact ⟨made, code, by rwa [show ({} : Assembler).code.length + n = n from Nat.zero_add n]⟩

/-- A guarded loop. One mnemonic is unknown, one operand does not fit, a label comes twice and a
    switch has no case; the labels are used before and behind their definitions, and the last one
    stands at the end. -/
def loopCalls : List Call :=
  [.label "top", .loadArgument 4, .branch "brfalse.s" "out", .emit "noop" .none, .label "top",
    .emit "nop" (.localVar 0), .switch [], .switch ["top", "out"], .branch "leave" "out",
    .label "handler", .emit "endfinally" .none, .label "out", .emit "ret" .none, .label "end",
    .clause { flags := .cleanup, tryStart := "top", tryEnd := "handler", handlerStart := "handler",
              handlerEnd := "out" },
    .clause { flags := .typed, tryStart := "handler", tryEnd := "out", handlerStart := "out",
              handlerEnd := "end", catchType := some ⟨0x02000001⟩ }, .maxStack 1]

def loopBody : Body where
  instrs := [⟨0, .ldarg .short, .argument 4, 0⟩, ⟨1, .branch .isFalse .short, .target 5, 2⟩,
    ⟨2, .switch, .switch [0, 5], 4⟩, ⟨3, .leave .long, .target 5, 17⟩, ⟨4, .endfinally, .none, 22⟩,
    ⟨5, .ret, .none, 23⟩]
  clauses := [⟨.cleanup, 0, some 4, 4, some 5, none, none⟩,
    ⟨.typed, 4, some 5, 5, none, none, some ⟨0x02000001⟩⟩]
  maxStack := 1
  nextId := 6

theorem loopCalls_assemble :
    Labelled loopCalls ∧ (run {} loopCalls).2.finish = .ok loopBody ∧
      Assembles loopCalls loopBody ∧ (∃ g, loopBody.toGraph = .ok g) ∧
      (kept (run {} loopCalls).1).length + 4 = loopCalls.length := by
  have labelled : Labelled loopCalls := by decide
  have done : (run {} loopCalls).2.finish = .ok loopBody := by decide
  obtain ⟨-, made, -, -, graph⟩ := calls_assemble loopCalls
  exact ⟨labelled, done, made loopBody done, (graph labelled loopBody done).mpr (by decide),
    by decide⟩

end Assembler
end Unravel
