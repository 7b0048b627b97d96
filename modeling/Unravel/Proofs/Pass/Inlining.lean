import Unravel.Pass.Inline
import Unravel.Proofs.Graph.Invariant

namespace Unravel

/-- The signature of a call is that of its callee, and its values can be counted. -/
structure MethodRef.Fits (ref : MethodRef) (callee : Method) : Prop where
  params : ref.params = callee.params
  hasThis : ref.hasThis = callee.hasThis
  returns : ref.returns = callee.returnsValue
  counted : ref.arity < 0x10000

def Resolver.Agrees (methods : Resolver) (code : List Instr) : Prop :=
  ∀ i ∈ code, ∀ ref callee, i.opcode = .call → i.operand = .method ref →
    methods.resolve? ref.token = some callee → ref.Fits callee

/-- The calls in the bodies of callees are made with the signatures of their callees. -/
def Resolver.Coherent (methods : Resolver) : Prop :=
  ∀ token callee body, methods.resolve? token = some callee → callee.readable? = some body →
    methods.Agrees body.instrs

theorem MethodRef.Fits.arity {ref : MethodRef} {callee : Method} (fits : ref.Fits callee) :
    ref.arity = callee.arity := by
  rw [MethodRef.arity, Method.arity, fits.params, fits.hasThis]

instance (ref : MethodRef) (callee : Method) : Decidable (ref.Fits callee) :=
  decidable_of_iff (ref.params = callee.params ∧ ref.hasThis = callee.hasThis ∧
      ref.returns = callee.returnsValue ∧ ref.arity < 0x10000)
    ⟨fun ⟨params, this, returns, counted⟩ => ⟨params, this, returns, counted⟩,
      fun fits => ⟨fits.params, fits.hasThis, fits.returns, fits.counted⟩⟩

instance (methods : Resolver) (code : List Instr) : Decidable (methods.Agrees code) :=
  decidable_of_iff (∀ i ∈ code, i.opcode = .call → ∀ ref ∈ i.method?,
      ∀ callee ∈ methods.resolve? ref.token, ref.Fits callee) <| by
    have names : ∀ (i : Instr) (ref : MethodRef), ref ∈ i.method? ↔ i.operand = .method ref := by
      intro i ref
      unfold Instr.method?
      cases i.operand <;> simp
    constructor
    · intro all i inside ref callee calls named resolved
      exact all i inside calls ref ((names i ref).mpr named) callee resolved
    · intro agrees i inside calls ref named callee resolved
      exact agrees i inside ref callee calls ((names i ref).mp named) resolved

theorem MethodTable.get?_some {methods : MethodTable} {token : Token} {m : Method}
    (found : methods.get? token = some m) : m ∈ methods.methods ∧ m.token = token :=
  ⟨List.mem_of_find?_eq_some found, by simpa using List.find?_some found⟩

theorem MethodTable.resolve?_some {methods : MethodTable} {token : Token} {m : Method}
    (found : methods.resolve? token = some m) : m ∈ methods.methods ∧ m.token = token := by
  unfold resolve? at found
  split at found
  · exact get?_some found
  · cases found

theorem Method.body_of_readable? {m : Method} {body : Body} (readable : m.readable? = some body) :
    m.body = some body := by
  unfold readable? at readable
  split at readable
  · cases readable
  · exact readable

theorem MethodTable.coherent {methods : MethodTable}
    (agree : ∀ m ∈ methods.methods, ∀ body ∈ m.body, methods.resolver.Agrees body.instrs) :
    methods.resolver.Coherent := by
  intro token callee body found readable
  have listed := (resolve?_some found).1
  exact agree callee listed body (Method.body_of_readable? readable)

namespace Inline
variable {ctx : PassContext} {g : Graph} {b : Block}

/-- The method loads its arguments in order, goes on with some code that may be spliced in, and
    returns what that code leaves. -/
structure Forwards (ctx : PassContext) (callee : Method) (loads code : List Instr) : Prop where
  body : ∃ body last, callee.readable? = some body ∧ body.clauses = [] ∧
    body.instrs = loads ++ code ++ [last] ∧ last.opcode = .ret
  arity : loads.length = callee.arity
  ordered : loadsInOrder 0 loads = true
  fit : ∀ i ∈ code, ∃ accepts, isSpliceable ctx accepts i = true
  depth : depthAfter? callee.arity code = some callee.returnsValue.toNat

theorem straightCode?_some {callee : Method} {code : List Instr}
    (straight : straightCode? ctx callee = some code) :
    ∃ body last, callee.readable? = some body ∧ body.clauses = [] ∧
      body.instrs = code ++ [last] ∧ last.opcode = .ret := by
  obtain ⟨body, readable, straight⟩ := Option.bind_eq_some_iff.mp straight
  obtain ⟨last, ends, straight⟩ := Option.bind_eq_some_iff.mp straight
  split at straight
  · cases straight
  · rename_i fits
    cases straight
    simp only [Bool.or_eq_true, not_or, Bool.not_eq_true', Bool.not_eq_false, bne_iff_ne,
      not_not, List.isEmpty_iff] at fits
    refine ⟨body, last, readable, fits.1.1.1.2, ?_, fits.2⟩
    exact (List.dropLast_append_getLast? last ends).symm

/-- A method that is spliced in for a call is a forwarder, is not yet being looked into, and calls
    methods that are forwarders below it. -/
theorem splice?_succ {fuel : Nat} {chain : List Token} {token : Token} {code : List Instr}
    (spliced : splice? ctx (fuel + 1) chain token = some code) :
    ∃ callee loads, token ≠ ctx.method.token ∧ token ∉ chain ∧
      ctx.methods.resolve? token = some callee ∧ Forwards ctx callee loads code ∧
      ∀ i ∈ code,
        isSpliceable ctx (fun t => (splice? ctx fuel (token :: chain) t).isSome) i = true := by
  rw [splice?] at spliced
  split at spliced
  · cases spliced
  · rename_i free
    simp only [Bool.or_eq_true, not_or, decide_eq_true_eq, List.contains_iff_mem] at free
    obtain ⟨callee, resolved, spliced⟩ := Option.bind_eq_some_iff.mp spliced
    obtain ⟨whole, straight, spliced⟩ := Option.bind_eq_some_iff.mp spliced
    dsimp only at spliced
    split at spliced
    · cases spliced
    · rename_i fits
      obtain ⟨depth, known, spliced⟩ := Option.bind_eq_some_iff.mp spliced
      split at spliced
      · rename_i left
        cases spliced
        simp only [Bool.or_eq_true, not_or, Bool.not_eq_true', Bool.not_eq_false,
          decide_eq_true_eq, Nat.not_lt] at fits
        have fine := List.all_eq_true.mp fits.2
        refine ⟨callee, whole.take callee.arity, free.1, free.2, resolved, ⟨?_, ?_, fits.1.2,
          fun i inside => ⟨_, fine i inside⟩, ?_⟩, fine⟩
        · rw [List.take_append_drop]
          exact straightCode?_some straight
        · rw [List.length_take]
          exact Nat.min_eq_left fits.1.1
        · rw [known, left]
      · cases spliced

theorem splice?_some {fuel : Nat} {chain : List Token} {token : Token} {code : List Instr}
    (spliced : splice? ctx fuel chain token = some code) :
    ∃ callee loads, ctx.methods.resolve? token = some callee ∧ Forwards ctx callee loads code := by
  cases fuel with
  | zero => cases spliced
  | succ fuel =>
    obtain ⟨callee, loads, -, -, resolved, forwards, -⟩ := splice?_succ spliced
    exact ⟨callee, loads, resolved, forwards⟩

theorem isSpliceable_plain {accepts : Token → Bool} {i : Instr}
    (fine : isSpliceable ctx accepts i = true) : i.isTerminal = false := by
  unfold isSpliceable at fine
  split at fine
  · cases fine
  · rename_i plain
    simp only [Bool.or_eq_true, not_or, Bool.not_eq_true] at plain
    exact plain.1.1.1

theorem Forwards.plain {callee : Method} {loads code : List Instr}
    (forwards : Forwards ctx callee loads code) : ∀ i ∈ code, i.isTerminal = false := by
  intro i inside
  obtain ⟨accepts, fine⟩ := forwards.fit i inside
  exact isSpliceable_plain fine

theorem splice?_plain {fuel : Nat} {chain : List Token} {token : Token} {code : List Instr}
    (spliced : splice? ctx fuel chain token = some code) : ∀ i ∈ code, i.isTerminal = false := by
  obtain ⟨callee, loads, -, forwards⟩ := splice?_some spliced
  exact forwards.plain

theorem callee?_plain {i : Instr} {token : Token} (calls : callee? i = some token) :
    i.isTerminal = false := by
  unfold callee? at calls
  split at calls
  · rename_i op _
    simp [Instr.isTerminal, Instr.flow, op, Opcode.flow, Flow.endsBlock]
  · cases calls

theorem length_renumber (fresh : Nat) (code : List Instr) :
    (renumber fresh code).length = code.length := by
  induction code generalizing fresh with
  | nil => rfl
  | cons i rest ih => rw [renumber, List.length_cons, ih, List.length_cons]

theorem length_expand (fresh : Nat) (call : Instr) (spliced : List Instr) :
    (expand fresh call spliced).length = spliced.length - 1 + 1 := by
  cases spliced with
  | nil => rfl
  | cons first rest => rw [expand, List.length_cons, length_renumber]; rfl

theorem map_id_renumber {fresh : Nat} {code : List Instr}
    (room : InstrId.Room fresh code.length) :
    (renumber fresh code).map Instr.id = List.range' fresh code.length := by
  induction code generalizing fresh with
  | nil => rfl
  | cons i rest ih =>
    rw [List.length_cons, Nat.add_comm] at room
    rw [renumber, List.map_cons, InstrId.next_of_room room.split.1, ih room.split.2,
      List.length_cons, List.range'_succ]

theorem map_id_expand {fresh : Nat} (call : Instr) {spliced : List Instr}
    (room : InstrId.Room fresh (spliced.length - 1)) :
    (expand fresh call spliced).map Instr.id =
      call.id :: List.range' fresh (spliced.length - 1) := by
  cases spliced with
  | nil => rfl
  | cons first rest =>
    rw [expand, List.map_cons, map_id_renumber (by simpa using room)]
    rfl

theorem mem_renumber {fresh : InstrId} {code : List Instr} {i : Instr}
    (inside : i ∈ renumber fresh code) :
    ∃ j ∈ code, i = { j with id := i.id, offset := i.offset } := by
  induction code generalizing fresh with
  | nil => cases inside
  | cons first rest ih =>
    rcases List.mem_cons.mp inside with rfl | later
    · exact ⟨first, List.mem_cons_self, rfl⟩
    · obtain ⟨j, among, same⟩ := ih later
      exact ⟨j, List.mem_cons_of_mem first among, same⟩

theorem mem_expand {fresh : InstrId} {call i : Instr} {code : List Instr}
    (inside : i ∈ expand fresh call code) :
    i = call.erase ∨ ∃ j ∈ code, i = { j with id := i.id, offset := i.offset } := by
  cases code with
  | nil => exact .inl (List.mem_singleton.mp inside)
  | cons first rest =>
    rcases List.mem_cons.mp inside with rfl | later
    · exact .inr ⟨first, List.mem_cons_self, rfl⟩
    · obtain ⟨j, among, same⟩ := mem_renumber later
      exact .inr ⟨j, List.mem_cons_of_mem first among, same⟩

theorem expand_plain {fresh : InstrId} {call : Instr} {spliced : List Instr}
    (plain : ∀ i ∈ spliced, i.isTerminal = false) :
    ∀ i ∈ expand fresh call spliced, i.isTerminal = false := by
  intro i inside
  rcases mem_expand inside with rfl | ⟨j, among, same⟩
  · rfl
  · rw [same]
    exact plain j among

theorem expandAll_first (ctx : PassContext) (fresh : InstrId) (i : Instr) (rest : List Instr) :
    ((∀ t, callee? i = some t → splice? ctx depthLimit [] t = none) ∧
      expandAll ctx fresh (i :: rest) =
        (i :: (expandAll ctx fresh rest).1, (expandAll ctx fresh rest).2)) ∨
    ∃ token code, callee? i = some token ∧ splice? ctx depthLimit [] token = some code ∧
      expandAll ctx fresh (i :: rest) =
        (expand fresh i code ++ (expandAll ctx (InstrId.after fresh (code.length - 1)) rest).1,
          (expandAll ctx (InstrId.after fresh (code.length - 1)) rest).2.1,
          token :: (expandAll ctx (InstrId.after fresh (code.length - 1)) rest).2.2) := by
  rw [expandAll]
  split
  · rename_i stays
    refine .inl ⟨fun t calls => ?_, rfl⟩
    simpa [calls] using stays
  · rename_i token code found
    obtain ⟨t, calls, found⟩ := Option.bind_eq_some_iff.mp found
    obtain ⟨whole, spliced, same⟩ := Option.map_eq_some_iff.mp found
    cases same
    exact .inr ⟨token, code, calls, spliced, rfl⟩

/-- The ids that are taken for code with its calls expanded. A call keeps its id, so that an
    expansion takes one less than it has instructions. -/
def newIds (ctx : PassContext) : List Instr → Nat
  | [] => 0
  | i :: rest =>
    match (callee? i).bind (splice? ctx depthLimit []) with
    | none => newIds ctx rest
    | some code => code.length - 1 + newIds ctx rest

/-- What becomes of one instruction: it stays, or is a call that is expanded. -/
inductive Expanded (fresh : InstrId) (i : Instr) : List Instr → Prop where
  | stays : Expanded fresh i [i]
  | spliced {code : List Instr} (calls : i.isTerminal = false)
      (plain : ∀ j ∈ code, j.isTerminal = false) : Expanded fresh i (expand fresh i code)

theorem expandAll_cons (ctx : PassContext) (fresh : InstrId) (i : Instr) (rest : List Instr) :
    ∃ code, Expanded fresh i code ∧
      newIds ctx (i :: rest) = code.length - 1 + newIds ctx rest ∧
      (expandAll ctx fresh (i :: rest)).1 =
        code ++ (expandAll ctx (fresh.after (code.length - 1)) rest).1 ∧
      (expandAll ctx fresh (i :: rest)).2.1 =
        (expandAll ctx (fresh.after (code.length - 1)) rest).2.1 := by
  rcases expandAll_first ctx fresh i rest with ⟨stays, same⟩ | ⟨token, code, calls, spliced, same⟩
  · have none : (callee? i).bind (splice? ctx depthLimit []) = none :=
      Option.bind_eq_none_iff.mpr stays
    refine ⟨[i], .stays, ?_, ?_, ?_⟩
    · rw [newIds, none]
      exact (Nat.zero_add _).symm
    · rw [same]
      rfl
    · rw [same]
      rfl
  · have expands : (callee? i).bind (splice? ctx depthLimit []) = some code :=
      Option.bind_eq_some_iff.mpr ⟨token, calls, spliced⟩
    have size := length_expand fresh i code
    refine ⟨expand fresh i code, .spliced (callee?_plain calls) (splice?_plain spliced), ?_⟩
    rw [same, size, Nat.add_sub_cancel, newIds, expands]
    exact ⟨rfl, rfl, rfl⟩

namespace Expanded
variable {fresh : Nat} {i : Instr} {code : List Instr}

theorem ids (e : Expanded fresh i code) (room : InstrId.Room fresh (code.length - 1)) :
    code.map Instr.id = i.id :: List.range' fresh (code.length - 1) := by
  cases e with
  | stays => rfl
  | spliced calls plain =>
    rw [length_expand, Nat.add_sub_cancel] at room ⊢
    exact map_id_expand i room

theorem mem_ids (e : Expanded fresh i code) (room : InstrId.Room fresh (code.length - 1))
    {n : Nat} :
    n ∈ code.map Instr.id ↔ n = i.id ∨ fresh ≤ n ∧ n < fresh + (code.length - 1) := by
  rw [e.ids room, List.mem_cons, List.mem_range'_1]

theorem nodup_ids (e : Expanded fresh i code) (room : InstrId.Room fresh (code.length - 1))
    (old : (i.id : Nat) < fresh) : (code.map Instr.id).Nodup := by
  rw [e.ids room, List.nodup_cons, List.mem_range'_1]
  exact ⟨fun ⟨new, _⟩ => absurd new (Nat.not_le.mpr old), List.nodup_range'⟩

theorem filled (e : Expanded fresh i code) : code ≠ [] := by
  cases e with
  | stays => exact List.cons_ne_nil _ _
  | @spliced code calls plain =>
    apply List.ne_nil_of_length_pos
    rw [length_expand]
    exact Nat.succ_pos _

theorem plain (e : Expanded fresh i code) (open_ : i.isTerminal = false) :
    ∀ j ∈ code, j.isTerminal = false := by
  cases e with
  | stays =>
    intro j inside
    rw [List.mem_singleton.mp inside]
    exact open_
  | spliced calls plain => exact expand_plain plain

theorem of_terminal (e : Expanded fresh i code) (ends : i.isTerminal = true) :
    code = [i] := by
  cases e with
  | stays => rfl
  | spliced calls plain =>
    rw [calls] at ends
    cases ends

end Expanded

/-- Unless the counter overflows, expanded code has the ids of the code and new ones, none of them
    twice. -/
theorem expandAll_ids (ctx : PassContext) {low fresh : Nat} (above : low ≤ fresh)
    (instrs : List Instr) (room : InstrId.Room fresh (newIds ctx instrs))
    (old : ∀ n : Nat, n ∈ instrs.map Instr.id → n < low) (nodup : (instrs.map Instr.id).Nodup) :
    (expandAll ctx fresh instrs).2.1 = fresh + newIds ctx instrs ∧
      ((expandAll ctx fresh instrs).1.map Instr.id).Nodup ∧
      ∀ n : Nat, n ∈ (expandAll ctx fresh instrs).1.map Instr.id → n ∈ instrs.map Instr.id ∨
        (fresh ≤ n ∧ n < fresh + newIds ctx instrs) := by
  induction instrs generalizing fresh with
  | nil => exact ⟨rfl, List.nodup_nil, by simp [expandAll]⟩
  | cons i rest ih =>
    rw [List.map_cons, List.nodup_cons] at nodup
    obtain ⟨code, expanded, taken, codes, last⟩ := expandAll_cons ctx fresh i rest
    rw [taken] at room ⊢
    obtain ⟨room, roomRest⟩ := room.split
    rw [InstrId.after_of_room room] at codes last
    obtain ⟨oldHere, oldRest⟩ := List.forall_mem_cons.mp old
    obtain ⟨later, nodupRest, each⟩ := ih (Nat.le_trans above (Nat.le_add_right _ _)) roomRest
      oldRest nodup.2
    rw [codes, last, List.map_append]
    refine ⟨by rw [later, Nat.add_assoc], ?_, ?_⟩
    · refine List.nodup_append'.mpr
        ⟨expanded.nodup_ids room (Nat.lt_of_lt_of_le oldHere above), nodupRest, ?_⟩
      intro (n : Nat) here there
      rcases (expanded.mem_ids room).mp here with rfl | ⟨_, _⟩ <;>
        rcases each _ there with among | ⟨_, _⟩
      · exact nodup.1 among
      · omega
      · have := oldRest n among
        omega
      · omega
    · intro n inside
      rw [List.map_cons, List.mem_cons]
      rcases List.mem_append.mp inside with here | there
      · rcases (expanded.mem_ids room).mp here with rfl | ⟨high, bound⟩
        · exact .inl (.inl rfl)
        · exact .inr ⟨high, by omega⟩
      · rcases each n there with among | ⟨high, bound⟩
        · exact .inl (.inr among)
        · exact .inr ⟨by omega, by omega⟩

theorem expandAll_shape (ctx : PassContext) (fresh : Nat) {front : List Instr} (last : Instr)
    (plain : ∀ i ∈ front, i.isTerminal = false) :
    ∃ front' last', (expandAll ctx fresh (front ++ [last])).1 = front' ++ [last'] ∧
      (∀ i ∈ front', i.isTerminal = false) ∧
      (last' = last ∨ (last.isTerminal = false ∧ last'.isTerminal = false)) := by
  induction front generalizing fresh with
  | nil =>
    obtain ⟨code, expanded, -, codes, -⟩ := expandAll_cons ctx fresh last []
    rw [List.nil_append, codes, expandAll, List.append_nil]
    cases ends : last.isTerminal with
    | true => exact ⟨[], last, expanded.of_terminal ends, by simp, .inl rfl⟩
    | false =>
      have open_ := expanded.plain ends
      rcases code.eq_nil_or_concat with empty | ⟨front, l, rfl⟩
      · exact absurd empty expanded.filled
      · rw [List.concat_eq_append] at open_ ⊢
        exact ⟨front, l, rfl, fun i inside => open_ i (List.mem_append_left _ inside),
          .inr ⟨rfl, open_ l (by simp)⟩⟩
  | cons i rest ih =>
    obtain ⟨code, expanded, -, codes, -⟩ := expandAll_cons ctx fresh i (rest ++ [last])
    obtain ⟨front', last', same, open_, ends⟩ :=
      ih _ fun j inside => plain j (List.mem_cons_of_mem i inside)
    refine ⟨code ++ front', last', ?_, ?_, ends⟩
    · rw [List.cons_append, codes, same, List.append_assoc]
    · intro j inside
      rcases List.mem_append.mp inside with here | there
      · exact expanded.plain (plain i List.mem_cons_self) j here
      · exact open_ j there

def expandBlock (ctx : PassContext) (fresh : Nat) (b : Block) : Block :=
  { b with instrs := (expandAll ctx fresh b.instrs).1 }

theorem expandBlock_shape (ctx : PassContext) (fresh : Nat) (filled : b.instrs ≠ [])
    (straight : b.Straight) :
    (expandBlock ctx fresh b).instrs ≠ [] ∧ (expandBlock ctx fresh b).Straight ∧
      (expandBlock ctx fresh b).kind = b.kind := by
  obtain ⟨front, last, code⟩ := Block.exists_last filled
  have plain := (Block.straight_iff code).mp straight
  obtain ⟨front', last', made, plain', same⟩ := expandAll_shape ctx fresh last plain
  rw [← code] at made
  have code' : (expandBlock ctx fresh b).instrs = front' ++ [last'] := made
  refine ⟨by simp [code'], (Block.straight_iff code').mpr plain', ?_⟩
  rw [Block.kind_eq code, Block.kind_eq code']
  rcases same with rfl | ⟨open₁, open₂⟩
  · rfl
  · rw [Instr.kind_of_plain open₁, Instr.kind_of_plain open₂]

theorem inlineBlock_laid {id : BlockId} (l : g.Laid) (live : g.block? id = some b) :
    (inlineBlock ctx g id b).graph.Laid := by
  obtain ⟨filled, straight, -⟩ :=
    expandBlock_shape ctx g.nextInstr (l.filled live) (l.straight live)
  exact l.rewritten (f := fun b' => { b' with instrs := (expandAll ctx g.nextInstr b.instrs).1 })
    live rfl filled straight

theorem inlineBlock_distinct {id : BlockId} (distinct : g.Distinct) (live : g.block? id = some b)
    (room : InstrId.Room g.nextInstr (newIds ctx b.instrs)) :
    (inlineBlock ctx g id b).graph.Distinct ∧
      (inlineBlock ctx g id b).graph.nextInstr = (g.nextInstr + newIds ctx b.instrs : Nat) := by
  obtain ⟨last, nodup, ids⟩ := expandAll_ids ctx (Nat.le_refl g.nextInstr) b.instrs room
    (distinct.fresh live) (distinct.unique live)
  refine ⟨distinct.rewritten
    (f := fun b' => { b' with instrs := (expandAll ctx g.nextInstr b.instrs).1 })
    live ?_ nodup ?_, last⟩
  · rw [last]
    exact Nat.le_add_right _ _
  · rw [last]
    exact ids

theorem inlineBlock_tight {id : BlockId} (tight : g.Tight) (l : g.Laid)
    (live : g.block? id = some b) : (inlineBlock ctx g id b).graph.Tight := by
  obtain ⟨-, -, kind⟩ := expandBlock_shape ctx g.nextInstr (l.filled live) (l.straight live)
  refine tight.rewritten
    (f := fun b' => { b' with instrs := (expandAll ctx g.nextInstr b.instrs).1 }) live ?_
  have successors : (expandBlock ctx g.nextInstr b).successors = b.successors := by
    simp only [Block.successors, kind]
    rfl
  change ∀ s ∈ (expandBlock ctx g.nextInstr b).successors, g.contains s = true
  rw [successors]
  exact tight live

theorem inlineBlock_consistent {id : BlockId} (c : g.Consistent) (live : g.block? id = some b)
    (room : InstrId.Room g.nextInstr (newIds ctx b.instrs)) :
    (inlineBlock ctx g id b).graph.Consistent :=
  (inlineBlock_laid c.laid live).consistent (inlineBlock_distinct c.distinct live room).1
    (inlineBlock_tight c.tight c.laid live)

theorem runAll_keeps {P : Graph → Prop}
    (step : ∀ {g id b}, P g → g.block? id = some b → P (inlineBlock ctx g id b).graph)
    (ids : List BlockId) (holds : P g) : P (runAll ctx ids g).graph := by
  induction ids generalizing g with
  | nil => exact holds
  | cons id rest ih =>
    rw [runAll]
    split
    · exact ih holds
    · rename_i b live
      exact PassRun.andThen_keeps (step holds live) ih

theorem pass_frame (g : Graph) (round : Nat) (ctx : PassContext) :
    g.SameFrame (pass.run round ctx g).graph :=
  runAll_keeps (P := g.SameFrame) (fun frame _ => ⟨frame.layout, frame.regions⟩) g.layout
    ⟨rfl, rfl⟩

theorem pass_laid (l : g.Laid) (round : Nat) (ctx : PassContext) :
    (pass.run round ctx g).graph.Laid :=
  runAll_keeps inlineBlock_laid g.layout l

def idsTaken (ctx : PassContext) (g : Graph) (ids : List BlockId) : Nat :=
  ((ids.filterMap g.block?).map fun b => newIds ctx b.instrs).sum

theorem idsTaken_congr {g' : Graph} {ids : List BlockId}
    (same : ∀ id ∈ ids, g'.block? id = g.block? id) :
    idsTaken ctx g' ids = idsTaken ctx g ids := by
  rw [idsTaken, idsTaken, List.filterMap_congr same]

theorem idsTaken_cons {id : BlockId} (live : g.block? id = some b) (rest : List BlockId) :
    idsTaken ctx g (id :: rest) = newIds ctx b.instrs + idsTaken ctx g rest := by
  simp [idsTaken, live]

/-- What the expansion of one block keeps as long as the counter does not overflow, the pass
    keeps. -/
theorem runAll_keeps_room {P : Graph → Prop} (distinct : ∀ {g}, P g → g.Distinct)
    (step : ∀ {g id b}, P g → g.block? id = some b →
      InstrId.Room g.nextInstr (newIds ctx b.instrs) → P (inlineBlock ctx g id b).graph)
    {ids : List BlockId} (nodup : ids.Nodup) (holds : P g)
    (room : InstrId.Room g.nextInstr (idsTaken ctx g ids)) : P (runAll ctx ids g).graph := by
  induction ids generalizing g with
  | nil => exact holds
  | cons id rest ih =>
    rw [List.nodup_cons] at nodup
    rw [runAll]
    split
    · rename_i gone
      refine ih nodup.2 holds ?_
      rwa [idsTaken, List.filterMap_cons, gone] at room
    · rename_i b live
      rw [idsTaken_cons live] at room
      -- The counter moves by what this block takes, and the blocks to come stay as they are.
      have later := room.split.2
      rw [← (inlineBlock_distinct (distinct holds) live room.split.1).2] at later
      refine PassRun.andThen_keeps (step holds live room.split.1) fun holds => ?_
      refine ih nodup.2 holds ?_
      rwa [idsTaken_congr]
      intro other inside
      have away : id ≠ other := fun same => nodup.1 (same ▸ inside)
      have found := g.block?_modify id other fun b' =>
        { b' with instrs := (expandAll ctx g.nextInstr b.instrs).1 }
      rwa [if_neg away] at found

theorem pass_consistent (c : g.Consistent) (round : Nat) (ctx : PassContext)
    (room : InstrId.Room g.nextInstr (idsTaken ctx g g.layout)) :
    (pass.run round ctx g).graph.Consistent :=
  runAll_keeps_room Graph.Consistent.distinct inlineBlock_consistent c.nodup c room

end Inline
end Unravel
