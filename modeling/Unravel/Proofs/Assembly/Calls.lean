import Mathlib
import Unravel.Assembler

/-!
Calls of the assembler, in any order. Whether a call emits an instruction, and which, does not hang
on the calls before it; a definition fails if its label is known. So what the assembler holds can be
told from the calls alone, and calls that fail might as well not have been made.
-/
namespace Unravel

def Opcode.branches (op : Opcode) : Bool :=
  op.flow == .conditional || op.flow == .unconditional || op.flow == .leave

def Slot.written (slot : Slot) (named : Operand) : Operand :=
  match slot with
  | .fixed _ => .none
  | .short | .long => named

namespace Assembler

inductive Call where
  | emit (name : String) (operand : Operand)
  | branch (name label : String)
  | switch (labels : List String)
  | call (name : String) (callee : MethodRef)
  | loadArgument (n : Nat)
  | loadLocal (n : Nat)
  | storeLocal (n : Nat)
  | loadInt (v : BitVec 32)
  | label (name : String)
  | clause (c : LabelledClause)
  | locals (n : Nat)
  | maxStack (n : Nat)
deriving DecidableEq

namespace Call

def emits : Call → Bool
  | .label _ | .clause _ | .locals _ | .maxStack _ => false
  | _ => true

def made? : Call → Option (Opcode × Pending)
  | .emit name operand =>
    ((Opcode.ofMnemonic? name).filter operand.fits).map fun op => (op, .ready operand)
  | .branch name target =>
    ((Opcode.ofMnemonic? name).filter Opcode.branches).map fun op => (op, .label target)
  | .switch labels => if labels = [] then none else some (.switch, .labels labels)
  | .call name callee =>
    ((Opcode.ofMnemonic? name).filter (Operand.method callee).fits).map fun op =>
      (op, .ready (.method callee))
  | .loadArgument n =>
    some (.ldarg (.shortest n), .ready ((Slot.shortest n).written (.argument n)))
  | .loadLocal n => some (.ldloc (.shortest n), .ready ((Slot.shortest n).written (.localVar n)))
  | .storeLocal n => some (.stloc (.shortest n), .ready ((Slot.shortest n).written (.localVar n)))
  | .loadInt v => some ((loadInt32 v).1, .ready (loadInt32 v).2)
  | .label _ | .clause _ | .locals _ | .maxStack _ => none

def clause? : Call → Option LabelledClause
  | .clause c => some c
  | _ => none

def locals? : Call → Option Nat
  | .locals n => some n
  | _ => none

def maxStack? : Call → Option Nat
  | .maxStack n => some n
  | _ => none

variable {c : Call}

theorem clause?_of_emits (emits : c.emits = true) : c.clause? = none := by
  cases c <;> first | rfl | cases emits

theorem locals?_of_emits (emits : c.emits = true) : c.locals? = none := by
  cases c <;> first | rfl | cases emits

theorem maxStack?_of_emits (emits : c.emits = true) : c.maxStack? = none := by
  cases c <;> first | rfl | cases emits

theorem ne_label_of_emits (emits : c.emits = true) (name : String) : c ≠ label name := by
  rintro rfl
  cases emits

end Call

abbrev Answer := Except Error (Option InstrId)

def numbered (done : Except Error (InstrId × Assembler)) :
    Except Error (Option InstrId × Assembler) :=
  done.map fun (id, a) => (some id, a)

def exec (a : Assembler) : Call → Except Error (Option InstrId × Assembler)
  | .emit name operand => numbered (a.emit name operand)
  | .branch name label => numbered (a.emitBranch name label)
  | .switch labels => numbered (a.emitSwitch labels)
  | .call name callee => numbered (a.emitCall name callee)
  | .loadArgument n => numbered (.ok (a.loadArgument n))
  | .loadLocal n => numbered (.ok (a.loadLocal n))
  | .storeLocal n => numbered (.ok (a.storeLocal n))
  | .loadInt v => numbered (.ok (a.loadInt v))
  | .label name => (a.define name).map fun a => (none, a)
  | .clause c => .ok (none, a.addClause c)
  | .locals n => .ok (none, { a with locals := n })
  | .maxStack n => .ok (none, { a with maxStack := n })

def after (a : Assembler) (c : Call) : Assembler :=
  match a.exec c with
  | .ok (_, a') => a'
  | .error _ => a

def answer (a : Assembler) (c : Call) : Answer := (a.exec c).map Prod.fst

def run : Assembler → List Call → List (Call × Answer) × Assembler
  | a, [] => ([], a)
  | a, c :: rest =>
    let (answers, last) := run (a.after c) rest
    ((c, a.answer c) :: answers, last)

inductive Does (a : Assembler) : Call → Except Error (Option InstrId × Assembler) → Prop where
  | emitted {c : Call} {x : Opcode × Pending} (emits : c.emits = true) (made : c.made? = some x) :
      Does a c (.ok (some a.code.length, (a.push x.1 x.2).2))
  | refused {c : Call} (emits : c.emits = true) (none : c.made? = none) (e : Error) :
      Does a c (.error e)
  | defined (name : String) (new : a.labels.lookup name = none) :
      Does a (.label name)
        (.ok (none, { a with labels := a.labels ++ [(name, a.code.length)] }))
  | repeated (name : String) (known : (a.labels.lookup name).isSome = true) :
      Does a (.label name) (.error (.duplicateLabel name))
  | clause (c : LabelledClause) : Does a (.clause c) (.ok (none, a.addClause c))
  | locals (n : Nat) : Does a (.locals n) (.ok (none, { a with locals := n }))
  | maxStack (n : Nat) : Does a (.maxStack n) (.ok (none, { a with maxStack := n }))

variable {a : Assembler} {calls before rest : List Call} {c : Call} {name : String} {n : Nat}

theorem does_emit (a : Assembler) {c : Call} {name : String} {operand : Operand}
    (emits : c.emits = true)
    (made : c.made? = ((Opcode.ofMnemonic? name).filter operand.fits).map
      fun op => (op, .ready operand)) :
    a.Does c (numbered (a.emit name operand)) := by
  cases found : Opcode.ofMnemonic? name with
  | none =>
    rw [found] at made
    simp only [emit, lookup, found]
    exact .refused emits made _
  | some op =>
    rw [found] at made
    by_cases fits : operand.fits op = true
    · simp only [emit, lookup, found, bind, Except.bind, fits, if_true]
      exact .emitted (x := (op, .ready operand)) emits (by simp [made, fits])
    · simp only [emit, lookup, found, bind, Except.bind, fits]
      exact .refused emits (by simp [made, fits]) _

theorem does_branch (a : Assembler) (name label : String) :
    a.Does (.branch name label) (numbered (a.emitBranch name label)) := by
  cases found : Opcode.ofMnemonic? name with
  | none =>
    simp only [emitBranch, lookup, found]
    exact .refused rfl (by simp [Call.made?, found]) _
  | some op =>
    simp only [emitBranch, lookup, found, bind, Except.bind]
    cases flow : op.flow with
    | conditional | unconditional | leave =>
      exact .emitted (x := (op, .label label)) rfl
        (by simp [Call.made?, found, Opcode.branches, flow])
    | _ => exact .refused rfl (by simp [Call.made?, found, Opcode.branches, flow]) _

theorem does_access (a : Assembler) {c : Call} {op : Slot → Opcode} {operand : Operand} {n : Nat}
    (emits : c.emits = true)
    (made : c.made? = some (op (.shortest n), .ready ((Slot.shortest n).written operand))) :
    a.Does c (numbered (.ok (a.emitAccess op operand n))) := by
  unfold emitAccess
  cases slot : Slot.shortest n with
  | fixed k | short | long =>
    rw [slot] at made
    exact .emitted emits made

theorem does (a : Assembler) (c : Call) : a.Does c (a.exec c) := by
  cases c with
  | emit name operand => exact a.does_emit rfl rfl
  | call name callee => exact a.does_emit rfl rfl
  | branch name label => exact a.does_branch name label
  | switch labels =>
    cases labels with
    | nil => exact .refused rfl rfl _
    | cons label rest => exact .emitted (x := (.switch, .labels (label :: rest))) rfl rfl
  | loadArgument n | loadLocal n | storeLocal n => exact a.does_access rfl rfl
  | loadInt v => exact .emitted (x := (_, _)) rfl rfl
  | label name =>
    simp only [exec, define]
    split
    · exact .repeated name ‹_›
    · exact .defined name (Option.not_isSome_iff_eq_none.mp ‹_›)
  | clause c => exact .clause c
  | locals n => exact .locals n
  | maxStack n => exact .maxStack n

theorem after_code (a : Assembler) (c : Call) : (a.after c).code = a.code ++ c.made?.toList := by
  unfold after
  have does := a.does c
  generalize a.exec c = r at does
  cases does with
  | emitted emits made => rw [made]; rfl
  | refused emits none => rw [none]; exact (List.append_nil _).symm
  | defined | repeated | clause | locals | maxStack => exact (List.append_nil _).symm

theorem after_clauses (a : Assembler) (c : Call) :
    (a.after c).clauses = a.clauses ++ c.clause?.toList := by
  unfold after
  have does := a.does c
  generalize a.exec c = r at does
  cases does with
  | emitted emits | refused emits =>
    rw [Call.clause?_of_emits emits]
    exact (List.append_nil _).symm
  | clause c => rfl
  | defined | repeated | locals | maxStack => exact (List.append_nil _).symm

theorem after_labels (a : Assembler) (c : Call) (name : String) :
    (a.after c).labels.lookup name =
      (a.labels.lookup name).or (if c = .label name then some a.code.length else none) := by
  unfold after
  have does := a.does c
  generalize a.exec c = r at does
  cases does with
  | emitted emits | refused emits => simp [Call.ne_label_of_emits emits, push]
  | defined other new =>
    rw [List.lookup_append, List.lookup_cons]
    by_cases same : name = other
    · simp [same]
    · simp [Ne.symm same, beq_eq_false_iff_ne.mpr same]
  | repeated other known =>
    by_cases same : other = name
    · subst same
      obtain ⟨n, found⟩ := Option.isSome_iff_exists.mp known
      simp [found]
    · simp [same]
  | clause | locals | maxStack => simp [addClause]

theorem after_settings (a : Assembler) (c : Call) :
    (a.after c).locals = c.locals?.getD a.locals ∧
      (a.after c).maxStack = c.maxStack?.getD a.maxStack := by
  unfold after
  have does := a.does c
  generalize a.exec c = r at does
  cases does with
  | emitted emits | refused emits =>
    rw [Call.locals?_of_emits emits, Call.maxStack?_of_emits emits]
    exact ⟨rfl, rfl⟩
  | defined | repeated | clause | locals | maxStack => exact ⟨rfl, rfl⟩

def emissions (calls : List Call) : List (Opcode × Pending) := calls.filterMap Call.made?

def Marks (calls : List Call) (name : String) (n : Nat) : Prop :=
  ∃ before rest, calls = before ++ .label name :: rest ∧ .label name ∉ before ∧
    n = (emissions before).length

def latest (setting? : Call → Option Nat) (default : Nat) (calls : List Call) : Nat :=
  (calls.filterMap setting?).getLast?.getD default

theorem filterMap_concat {α : Type} (f : Call → Option α) (calls : List Call) (c : Call) :
    (calls ++ [c]).filterMap f = calls.filterMap f ++ (f c).toList := by
  cases found : f c <;> simp [found]

theorem latest_concat (setting? : Call → Option Nat) (default : Nat) (calls : List Call)
    (c : Call) :
    latest setting? default (calls ++ [c]) =
      (setting? c).getD (latest setting? default calls) := by
  rw [latest, filterMap_concat]
  cases setting? c <;> simp [latest]

theorem marks_concat : Marks (calls ++ [c]) name n ↔ Marks calls name n ∨
    c = .label name ∧ .label name ∉ calls ∧ n = (emissions calls).length := by
  constructor
  · rintro ⟨before, rest, whole, new, count⟩
    rcases rest.eq_nil_or_concat with rfl | ⟨rest, last, rfl⟩
    · obtain ⟨rfl, same⟩ := List.append_inj' whole rfl
      exact .inr ⟨List.singleton_inj.mp same, new, count⟩
    · rw [List.concat_eq_append, ← List.cons_append, ← List.append_assoc] at whole
      obtain ⟨rfl, -⟩ := List.append_inj' whole rfl
      exact .inl ⟨before, rest, rfl, new, count⟩
  · rintro (⟨before, rest, rfl, new, count⟩ | ⟨rfl, new, count⟩)
    · exact ⟨before, rest ++ [c], by simp, new, count⟩
    · exact ⟨calls, [], rfl, new, count⟩

theorem exists_marks : (∃ n, Marks calls name n) ↔ .label name ∈ calls := by
  constructor
  · rintro ⟨n, before, rest, rfl, -, -⟩
    simp
  · intro inside
    obtain ⟨before, rest, rfl, new⟩ := List.eq_append_cons_of_mem inside
    exact ⟨_, before, rest, rfl, new, rfl⟩

structure Tracks (calls : List Call) (a : Assembler) : Prop where
  code : a.code = emissions calls
  labels : ∀ name n, a.labels.lookup name = some n ↔ Marks calls name n
  clauses : a.clauses = calls.filterMap Call.clause?
  locals : a.locals = latest Call.locals? 0 calls
  maxStack : a.maxStack = latest Call.maxStack? 8 calls

theorem tracks_start : Tracks [] {} where
  code := rfl
  labels name n := by simp [Marks]
  clauses := rfl
  locals := rfl
  maxStack := rfl

theorem Tracks.known (tracks : Tracks calls a) :
    (a.labels.lookup name).isSome = true ↔ .label name ∈ calls := by
  rw [← exists_marks, Option.isSome_iff_exists]
  exact exists_congr fun n => tracks.labels name n

theorem Tracks.after (tracks : Tracks calls a) (c : Call) :
    Tracks (calls ++ [c]) (a.after c) where
  code := by rw [after_code, tracks.code, emissions, emissions, filterMap_concat]
  labels name n := by
    rw [after_labels, marks_concat, ← tracks.labels, ← tracks.known, tracks.code]
    cases a.labels.lookup name <;> simp [eq_comm]
  clauses := by rw [after_clauses, tracks.clauses, filterMap_concat]
  locals := by rw [(a.after_settings c).1, tracks.locals, latest_concat]
  maxStack := by rw [(a.after_settings c).2, tracks.maxStack, latest_concat]

theorem Tracks.run (tracks : Tracks before a) (calls : List Call) :
    Tracks (before ++ calls) (a.run calls).2 := by
  induction calls generalizing before a with
  | nil => simpa [Assembler.run] using tracks
  | cons c rest ih =>
    have later := ih (tracks.after c)
    rwa [List.append_assoc] at later

def idOf (x : Call × Answer) : Option InstrId := x.2.toOption.join

def wentWell (x : Call × Answer) : Bool := x.2.isOk

theorem answer_made (a : Assembler) (c : Call) :
    (∃ x, c.made? = some x ∧ idOf (c, a.answer c) = some a.code.length) ∨
      c.made? = none ∧ idOf (c, a.answer c) = none := by
  unfold answer
  have does := a.does c
  generalize a.exec c = r at does
  cases does with
  | @emitted _ x emits made => exact .inl ⟨x, made, rfl⟩
  | refused emits none => exact .inr ⟨none, rfl⟩
  | defined | repeated | clause | locals | maxStack => exact .inr ⟨rfl, rfl⟩

theorem ids_run (a : Assembler) (calls : List Call) :
    (a.run calls).1.filterMap idOf = List.range' a.code.length (emissions calls).length := by
  induction calls generalizing a with
  | nil => rfl
  | cons c rest ih =>
    have later := ih (a.after c)
    rw [after_code, List.length_append] at later
    rw [run, emissions]
    rcases a.answer_made c with ⟨x, made, id⟩ | ⟨made, none⟩
    · rw [made, Option.toList_some, List.length_singleton] at later
      rw [List.filterMap_cons_some id, List.filterMap_cons_some made, later, List.length_cons,
        List.range'_succ]
      rfl
    · rw [made] at later
      rw [List.filterMap_cons_none none, List.filterMap_cons_none made, later]
      rfl

theorem emission_of_id {x : Call × Answer} (inside : x ∈ (a.run calls).1) {id : InstrId}
    (named : idOf x = some id) :
    ∃ n made, id = a.code.length + n ∧ x.1.made? = some made ∧
      (emissions calls)[n]? = some made := by
  induction calls generalizing a with
  | nil => cases inside
  | cons c rest ih =>
    rw [emissions]
    rcases List.mem_cons.mp inside with rfl | later
    · rcases a.answer_made c with ⟨x, made, here⟩ | ⟨-, none⟩
      · cases named.symm.trans here
        exact ⟨0, x, rfl, made, by rw [List.filterMap_cons_some made]; rfl⟩
      · cases named.symm.trans none
    · obtain ⟨n, x, same, own, there⟩ := ih later
      rw [after_code, List.length_append, Nat.add_assoc] at same
      cases made : c.made? with
      | none =>
        rw [made] at same
        exact ⟨n, x, by simpa using same, own, by rwa [List.filterMap_cons_none made]⟩
      | some y =>
        rw [made] at same
        refine ⟨1 + n, x, same, own, ?_⟩
        rwa [List.filterMap_cons_some made, Nat.add_comm, List.getElem?_cons_succ]

theorem calls_run (a : Assembler) (calls : List Call) : (a.run calls).1.map Prod.fst = calls := by
  induction calls generalizing a with
  | nil => rfl
  | cons c rest ih => rw [run, List.map_cons, ih]

theorem after_of_failed (failed : wentWell (c, a.answer c) = false) : a.after c = a := by
  unfold answer at failed
  unfold after
  cases done : a.exec c with
  | error e => rfl
  | ok r =>
    rw [done] at failed
    cases failed

def kept (answers : List (Call × Answer)) : List Call := (answers.filter wentWell).map Prod.fst

theorem run_kept (a : Assembler) (calls : List Call) :
    a.run (kept (a.run calls).1) = ((a.run calls).1.filter wentWell, (a.run calls).2) := by
  induction calls generalizing a with
  | nil => rfl
  | cons c rest ih =>
    have later := ih (a.after c)
    rw [kept] at later ⊢
    rw [run]
    cases well : wentWell (c, a.answer c) with
    | true => rw [List.filter_cons_of_pos well, List.map_cons, run, later]
    | false =>
      rw [after_of_failed well] at later ⊢
      rw [List.filter_cons_of_neg (by simp [well]), later]

end Assembler
end Unravel
