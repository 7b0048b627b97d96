import Unravel.Proofs.Fold.Pass
import Unravel.Proofs.Inline.Frame

/-!
Inlining keeps the meaning of every block. A call of a forwarder does what the forwarder's code
does behind its loads, on the values that the call takes. Above other values and in the frame of the
caller that code does the same, so it can stand in place of the call.
-/
namespace Unravel.Inline
variable {O H X : Type} {interp : Interp O H X} {methods : Resolver} {blank : Nat → Value O}
  {meaning : Opcode → Operand → List (Value O) → H → Option (Answer O H X)}
  {ctx : PassContext} {callee : Method} {loads code : List Instr}

theorem usesFrame_of_isSpliceable {accepts : Token → Bool} {i : Instr}
    (fine : isSpliceable ctx accepts i = true) : i.usesFrame = false := by
  unfold isSpliceable at fine
  split at fine
  · cases fine
  · rename_i free
    simp only [Bool.or_eq_true, not_or, Bool.not_eq_true, Option.isSome_eq_false_iff,
      Option.isNone_iff_eq_none] at free
    obtain ⟨⟨⟨-, argument⟩, loaded⟩, known⟩ := free
    cases op : i.opcode with
    | ldarg slot =>
      cases slot <;> simp_all [Opcode.takesArgument, Instr.loadedArgument?, Instr.slotIndex]
    | ldloc slot => simp [Instr.usesFrame, op, known]
    | plain p => cases p <;> simp_all [Instr.usesFrame, Opcode.acts, Plain.row]
    | _ => simp_all [Instr.usesFrame, Opcode.acts, Opcode.flow, Opcode.takesArgument]

theorem depthAfter?_append (depth : Nat) (front rest : List Instr) :
    depthAfter? depth (front ++ rest) =
      (depthAfter? depth front).bind fun depth => depthAfter? depth rest := by
  induction front generalizing depth with
  | nil => rfl
  | cons i front ih =>
    simp only [List.cons_append, depthAfter?, Option.bind_eq_bind, Option.bind_assoc]
    congr 1
    funext effect
    split
    · rfl
    · exact ih _

theorem depthAfter?_renumber (depth : Nat) (fresh : InstrId) (code : List Instr) :
    depthAfter? depth (renumber fresh code) = depthAfter? depth code := by
  induction code generalizing depth fresh with
  | nil => rfl
  | cons i rest ih =>
    simp only [renumber, depthAfter?, ih]
    rfl

theorem depthAfter?_expand (depth : Nat) (fresh : InstrId) (call : Instr) (code : List Instr) :
    depthAfter? depth (expand fresh call code) = depthAfter? depth code := by
  cases code with
  | nil => simp [expand, depthAfter?, Instr.erase, Instr.stackEffect?, Opcode.fixedStack]
  | cons first rest =>
    simp only [expand, depthAfter?, depthAfter?_renumber]
    rfl

theorem usesFrame_expand (fresh : InstrId) (call : Instr) (stay : ∀ i ∈ code, i.usesFrame = false) :
    ∀ i ∈ expand fresh call code, i.usesFrame = false := by
  intro i inside
  rcases mem_expand inside with rfl | ⟨j, among, same⟩
  · rfl
  · rw [same]
    exact stay j among

theorem runPlain_expand (modular : interp.Modular methods blank meaning) (fresh : InstrId)
    (call : Instr) (stay : ∀ i ∈ code, i.usesFrame = false) (m : Machine O H) :
    interp.runPlain (expand fresh call code) m = interp.runPlain code m := by
  have renumbered : ∀ (fresh : InstrId) (code : List Instr),
      (∀ i ∈ code, i.usesFrame = false) → ∀ m,
      interp.runPlain (renumber fresh code) m = interp.runPlain code m := by
    intro fresh code stay
    induction code generalizing fresh with
    | nil => exact fun _ => rfl
    | cons first rest ih =>
      intro m
      rw [List.forall_mem_cons] at stay
      rw [renumber, Interp.runPlain, Interp.step_spelled modular stay.1, funext (ih _ stay.2)]
      rfl
  cases code with
  | nil => rfl
  | cons first rest =>
    rw [List.forall_mem_cons] at stay
    have here := Interp.step_spelled modular stay.1 call.id call.offset m
    rw [expand, Interp.runPlain, funext (renumbered _ _ stay.2)]
    exact congrArg (Run.bind · _) here

theorem opcode_of_loadedArgument? {i : Instr} {n : Nat} (loads : i.loadedArgument? = some n) :
    ∃ slot, i.opcode = .ldarg slot := by
  unfold Instr.loadedArgument? at loads
  split at loads
  · exact ⟨_, ‹_›⟩
  · cases loads

theorem loadsInOrder_opcode {n : Nat} (ordered : loadsInOrder n loads = true) :
    ∀ i ∈ loads, ∃ slot, i.opcode = .ldarg slot := by
  induction loads generalizing n with
  | nil => exact List.forall_mem_nil _
  | cons i rest ih =>
    simp only [loadsInOrder, Bool.and_eq_true, beq_iff_eq] at ordered
    exact List.forall_mem_cons.mpr ⟨opcode_of_loadedArgument? ordered.1, ih ordered.2⟩

theorem loadsInOrder_plain {n : Nat} (ordered : loadsInOrder n loads = true) :
    ∀ i ∈ loads, i.isTerminal = false := by
  intro i inside
  obtain ⟨slot, op⟩ := loadsInOrder_opcode ordered i inside
  simp [Instr.isTerminal, Instr.flow, op, Opcode.flow, Flow.endsBlock]

theorem runPlain_loads (modular : interp.Modular methods blank meaning) {n : Nat}
    (ordered : loadsInOrder n loads = true) (stack : List (Value O)) (frame : Frame O H) :
    interp.runPlain loads ⟨stack, frame⟩ =
      .goes ⟨((List.range' n loads.length).map frame.args).reverse ++ stack, frame⟩ := by
  induction loads generalizing n stack with
  | nil => rfl
  | cons i rest ih =>
    simp only [loadsInOrder, Bool.and_eq_true, beq_iff_eq] at ordered
    obtain ⟨slot, op⟩ := opcode_of_loadedArgument? ordered.1
    have pushed : interp.step false i ⟨stack, frame⟩ = .goes ⟨frame.args n :: stack, frame⟩ := by
      simp [Interp.step, Instr.constant?, Instr.loadedLocal?, Instr.storedLocal?, Interp.compute,
        Interp.call, Instr.stackEffect?, Opcode.fixedStack, op, modular.argument ordered.1]
    rw [Interp.runPlain, pushed]
    simp only [Run.bind, ih ordered.2, List.length_cons, List.range'_succ, List.map_cons,
      List.reverse_cons, List.append_assoc, List.singleton_append]

theorem Forwards.stay (forwards : Forwards ctx callee loads code) :
    ∀ i ∈ code, i.usesFrame = false := by
  intro i inside
  obtain ⟨accepts, fine⟩ := forwards.fit i inside
  exact usesFrame_of_isSpliceable fine

theorem Forwards.runs (forwards : Forwards ctx callee loads code) :
    callee.Runs (loads ++ code) := by
  refine ⟨?_, forwards.body⟩
  intro i inside
  rcases List.mem_append.mp inside with early | late
  · exact loadsInOrder_plain forwards.ordered i early
  · exact forwards.plain i late

theorem Forwards.runPlain_loaded (modular : interp.Modular methods blank meaning)
    (forwards : Forwards ctx callee loads code) {taken : List (Value O)}
    (fits : taken.length = callee.arity) {frame : Frame O H}
    (given : frame.args = fun n => taken.reverse.getD n (blank n)) :
    interp.runPlain (loads ++ code) ⟨[], frame⟩ = interp.runPlain code ⟨taken, frame⟩ := by
  have loaded : (List.range' 0 loads.length).map frame.args = taken.reverse := by
    apply List.ext_getElem
    · simp [forwards.arity, fits]
    · intro n inside below
      simp [given, List.getElem?_eq_getElem below]
  rw [Interp.runPlain_append, runPlain_loads modular forwards.ordered, loaded, List.reverse_reverse,
    List.append_nil]
  rfl

theorem stackEffect?_call {i : Instr} {ref : MethodRef} (calls : i.opcode = .call)
    (names : i.operand = .method ref) (fits : ref.Fits callee) (returns : Bool) :
    i.stackEffect? returns = some ⟨callee.arity, callee.returnsValue.toNat⟩ := by
  have counted : Instr.count16 ref.arity = callee.arity := by
    rw [Instr.count16, Nat.mod_eq_of_lt fits.counted, fits.arity]
  simp [Instr.stackEffect?, calls, Instr.method?, names, counted, fits.returns]

theorem step_call {i : Instr} (calls : i.opcode = .call) (returns : Bool) (m : Machine O H) :
    interp.step returns i m = interp.call returns i m := by
  simp [Interp.step, Instr.constant?, Instr.loadedLocal?, Instr.storedLocal?, Interp.compute, calls]

theorem Forwards.runPlain_eq_step (modular : interp.Modular methods blank meaning)
    (forwards : Forwards ctx callee loads code) {ref : MethodRef}
    (found : methods.resolve? ref.token = some callee) (fits : ref.Fits callee) {i : Instr}
    (calls : i.opcode = .call) (names : i.operand = .method ref) {returns : Bool} {m : Machine O H}
    (enough : callee.arity ≤ m.stack.length) :
    interp.runPlain code m = interp.step returns i m := by
  obtain ⟨stack, frame⟩ := m
  have long : (stack.take callee.arity).length = callee.arity := by
    rw [List.length_take]
    exact Nat.min_eq_left enough
  have stays : i.usesFrame = false := by
    simp [Instr.usesFrame, calls]
  obtain ⟨leaves, same⟩ := Interp.runPlain_apart modular forwards.stay forwards.depth
    ⟨stack.take callee.arity, blank, fun n => (stack.take callee.arity).reverse.getD n (blank n),
      frame.heap⟩ long
  have moved := same (stack.drop callee.arity) frame
  rw [List.take_append_drop] at moved
  change interp.runPlain code ⟨stack, frame⟩ = _ at moved
  rw [moved, step_call calls]
  simp only [Interp.call, stackEffect?_call calls names fits, Option.map_some, Option.getD_some,
    Nat.not_lt.mpr enough, if_false, modular.apart stays]
  rw [calls, names, modular.call found fits forwards.runs _ _ long, Interp.invoke,
    forwards.runPlain_loaded modular long rfl]
  generalize interp.runPlain code ⟨stack.take callee.arity, _⟩ = ran at leaves
  cases leaves with
  | goes left => simp [Run.moved, Run.returned?, left, Answer.inside]
  | raised x f => rfl
  | undefined => rfl

/-- A forwarder's code neither reads nor writes below the values that the call takes, however far
    it has come. -/
theorem Forwards.apart (modular : interp.Modular methods blank meaning)
    (forwards : Forwards ctx callee loads code) (fresh : InstrId) (call : Instr)
    {front : List Instr} (early : front <+: expand fresh call code) :
    ∃ depth, Apart (interp.runPlain front) callee.arity depth := by
  obtain ⟨rest, whole⟩ := early
  have known := depthAfter?_expand callee.arity fresh call code
  rw [← whole, depthAfter?_append, forwards.depth] at known
  obtain ⟨depth, reached, -⟩ := Option.bind_eq_some_iff.mp known
  refine ⟨depth, Interp.runPlain_apart modular ?_ reached⟩
  intro i inside
  refine usesFrame_expand fresh call forwards.stay i ?_
  rw [← whole]
  exact List.mem_append_left rest inside

theorem isEmpty_expandAll (ctx : PassContext) (fresh : InstrId) (instrs : List Instr) :
    (expandAll ctx fresh instrs).1.isEmpty = instrs.isEmpty := by
  cases instrs with
  | nil => rfl
  | cons i rest =>
    obtain ⟨code, expanded, -, codes, -⟩ := expandAll_cons ctx fresh i rest
    rw [codes]
    simp [expanded.filled]

theorem expandAll_cases (ctx : PassContext) (fresh : InstrId) (i : Instr) (rest : List Instr) :
    (expandAll ctx fresh (i :: rest)).1 = i :: (expandAll ctx fresh rest).1 ∨
      ∃ ref callee loads code next, i.opcode = .call ∧ i.operand = .method ref ∧
        ctx.methods.resolve? ref.token = some callee ∧ Forwards ctx callee loads code ∧
        (expandAll ctx fresh (i :: rest)).1 =
          expand fresh i code ++ (expandAll ctx next rest).1 := by
  rcases expandAll_first ctx fresh i rest with ⟨-, same⟩ | ⟨token, code, calls, spliced, same⟩
  · exact .inl (by rw [same])
  · obtain ⟨callee, loads, resolved, forwards⟩ := splice?_some spliced
    unfold callee? at calls
    split at calls
    · rename_i ref op operand
      cases calls
      exact .inr ⟨ref, callee, loads, code, _, op, operand, resolved, forwards, by rw [same]⟩
    · cases calls

theorem runCode_expandAll (modular : interp.Modular ctx.methods blank meaning) {b : Block}
    {returns : Bool} {instrs : List Instr} (agrees : ctx.methods.Agrees instrs) (fresh : InstrId)
    (m : Machine O H) (enough : interp.runCode returns b instrs m ≠ .underflow) :
    interp.runCode returns b (expandAll ctx fresh instrs).1 m =
      interp.runCode returns b instrs m := by
  induction instrs generalizing fresh m with
  | nil => rfl
  | cons i rest ih =>
    have later : ctx.methods.Agrees rest := fun j inside => agrees j (List.mem_cons_of_mem i inside)
    rcases expandAll_cases ctx fresh i rest with
      stays | ⟨ref, callee, loads, code, next, calls, names, resolved, forwards, codes⟩
    · rw [stays]
      simp only [Interp.runCode, isEmpty_expandAll] at enough ⊢
      split
      · rfl
      · rename_i open_
        simp only [open_] at enough
        cases ran : interp.step returns i m with
        | goes m' =>
          rw [ran] at enough
          exact ih later fresh m' enough
        | raised | undefined | underflow => rfl
    · have plain : i.isTerminal = false := by
        simp [Instr.isTerminal, Instr.flow, calls, Opcode.flow, Flow.endsBlock]
      have fits := agrees i List.mem_cons_self ref callee calls names resolved
      rw [Fold.runCode_cons (.inr plain)] at enough ⊢
      rw [codes, Interp.runCode_append (expand_plain forwards.plain),
        runPlain_expand modular fresh i forwards.stay]
      by_cases short : m.stack.length < callee.arity
      · refine absurd ?_ enough
        rw [step_call calls]
        simp [Interp.call, stackEffect?_call calls names fits, short, Run.bind]
      · rw [forwards.runPlain_eq_step modular resolved fits calls names (Nat.not_lt.mp short)]
        cases ran : interp.step returns i m with
        | goes m' =>
          rw [ran] at enough
          exact ih later next m' enough
        | raised | undefined | underflow => rfl

theorem agrees_expandAll (coherent : ctx.methods.Coherent) {instrs : List Instr}
    (agrees : ctx.methods.Agrees instrs) (fresh : InstrId) :
    ctx.methods.Agrees (expandAll ctx fresh instrs).1 := by
  induction instrs generalizing fresh with
  | nil => exact agrees
  | cons i rest ih =>
    have later : ctx.methods.Agrees rest := fun j inside => agrees j (List.mem_cons_of_mem i inside)
    intro j inside ref callee calls names resolved
    rcases expandAll_cases ctx fresh i rest with
      stays | ⟨outerRef, outer, loads, code, next, -, -, found, forwards, codes⟩
    · rw [stays] at inside
      rcases List.mem_cons.mp inside with rfl | further
      · exact agrees j List.mem_cons_self ref callee calls names resolved
      · exact ih later fresh j further ref callee calls names resolved
    · rw [codes] at inside
      rcases List.mem_append.mp inside with spliced | further
      · rcases mem_expand spliced with rfl | ⟨k, among, same⟩
        · cases calls
        · obtain ⟨body, last, readable, -, text, -⟩ := forwards.body
          have listed : k ∈ body.instrs := by simp [text, among]
          rw [same] at calls names
          exact coherent _ outer body found readable k listed ref callee calls names resolved
      · exact ih later next j further ref callee calls names resolved

theorem inlineBlock_block? (ctx : PassContext) {g : Graph} {id : BlockId} {b : Block}
    (found : g.block? id = some b) (other : BlockId) :
    (inlineBlock ctx g id b).graph.block? other =
      if id = other then some (expandBlock ctx g.nextInstr b) else g.block? other := by
  change (g.modify id _).block? other = _
  rw [Graph.block?_modify]
  split
  · rename_i same
    rw [← same, found]
    rfl
  · rfl

theorem expandBlock_refines (modular : interp.Modular ctx.methods blank meaning) {b : Block}
    (agrees : ctx.methods.Agrees b.instrs) (returns : Bool) (fresh : InstrId) :
    interp.Refines returns b (expandBlock ctx fresh b) := by
  intro m enough
  rw [Interp.runBlock, Interp.runBlock, ← runCode_expandAll modular agrees fresh m enough]
  have targets : (expandBlock ctx fresh b).targets = b.targets := rfl
  exact Fold.runCode_edges targets rfl _ m

theorem runAll_refines (modular : interp.Modular ctx.methods blank meaning)
    (coherent : ctx.methods.Coherent) (returns : Bool) (ids : List BlockId) {g : Graph}
    (agree : ∀ id b, g.block? id = some b → ctx.methods.Agrees b.instrs) :
    (runAll ctx ids g).Fine fun g' => ∀ id b, g.block? id = some b →
      ∃ b', g'.block? id = some b' ∧ interp.Refines returns b b' := by
  induction ids generalizing g with
  | nil => exact ⟨⟨false, rfl⟩, fun id b live => ⟨b, live, .refl b⟩⟩
  | cons place rest ih =>
    rw [runAll]
    split
    · exact ih agree
    · rename_i c found
      have blocks := inlineBlock_block? ctx found
      have agree' : ∀ id b, (inlineBlock ctx g place c).graph.block? id = some b →
          ctx.methods.Agrees b.instrs := by
        intro id b live
        rw [blocks] at live
        split at live
        · cases live
          exact agrees_expandAll coherent (agree place c found) g.nextInstr
        · exact agree id b live
      refine PassRun.Fine.andThen (P := fun _ => True) ⟨⟨_, rfl⟩, trivial⟩ fun _ => ?_
      obtain ⟨went, refined⟩ := ih agree'
      refine ⟨went, ?_⟩
      intro id b live
      by_cases same : place = id
      · subst same
        cases found.symm.trans live
        obtain ⟨b', live', later⟩ := refined place _ ((blocks place).trans (if_pos rfl))
        exact ⟨b', live', (expandBlock_refines modular (agree _ _ found) returns _).trans later⟩
      · exact refined id b (((blocks id).trans (if_neg same)).trans live)

/-- The pass goes well and leaves every block with a refinement in its place; as in every
    refinement, stacks on which the block itself underflows are left out. All that the pass puts in
    place of a call stays above the values that the call takes. -/
theorem pass_refines_blocks (interp : Interp O H X) (returns : Bool) (round : Nat)
    (ctx : PassContext) (g : Graph) (blank : Nat → Value O)
    (meaning : Opcode → Operand → List (Value O) → H → Option (Answer O H X))
    (modular : interp.Modular ctx.methods blank meaning) (coherent : ctx.methods.Coherent)
    (agree : ∀ id b, g.block? id = some b → ctx.methods.Agrees b.instrs) :
    (∃ changed, (pass.run round ctx g).result = .ok changed) ∧
      (∀ id b, g.block? id = some b → ∃ b', (pass.run round ctx g).graph.block? id = some b' ∧
        interp.Refines returns b b') ∧
      ∀ token code, splice? ctx depthLimit [] token = some code →
        ∃ callee, ctx.methods.resolve? token = some callee ∧
          ∀ fresh call front, front <+: expand fresh call code →
            ∃ depth, Apart (interp.runPlain front) callee.arity depth := by
  obtain ⟨went, refined⟩ := runAll_refines modular coherent returns g.layout agree
  refine ⟨went, refined, ?_⟩
  intro token code spliced
  obtain ⟨callee, loads, resolved, forwards⟩ := splice?_some spliced
  exact ⟨callee, resolved, fun fresh call front early => forwards.apart modular fresh call early⟩

def adder : Method where
  token := .methodDef 2
  returnType := "System.Int32"
  params := 2
  body := some { instrs := [⟨0, .ldarg .short, .argument 0, 0⟩, ⟨1, .ldarg .short, .argument 1, 2⟩,
    ⟨2, .binary .add, .none, 4⟩, ⟨3, .ret, .none, 5⟩] }

def masker : Method where
  token := .methodDef 3
  returnType := "System.Int32"
  params := 2
  body := some { instrs := [⟨0, .ldarg .short, .argument 0, 0⟩, ⟨1, .ldarg .short, .argument 1, 2⟩,
    ⟨2, .call, .method adder.ref, 4⟩, ⟨3, .ldcI4S, .immediate (.int8 0x5A#8), 9⟩,
    ⟨4, .binary .xor, .none, 11⟩, ⟨5, .ret, .none, 12⟩] }

def maskedContext : PassContext where
  method := {}
  methods := .ofList [adder, masker]
  config := {}

def maskedCall : Graph where
  slots := [some ⟨0, [⟨0, .ldcI4S, .immediate (.int8 1#8), 0⟩,
    ⟨1, .ldcI4S, .immediate (.int8 4#8), 2⟩, ⟨2, .ldcI4S, .immediate (.int8 5#8), 4⟩,
    ⟨3, .call, .method masker.ref, 6⟩, ⟨4, .binary .add, .none, 11⟩, ⟨5, .ret, .none, 12⟩], [],
    none⟩]
  layout := [0]
  regions := []
  entry := 0
  nextInstr := 6
  locals := 0
  maxStack := 3

def maskedMeaning : Opcode → Operand → List (Value Unit) → Nat → Option (Answer Unit Nat Unit)
  | .call, .method ref, [.int y, .int x], heap =>
    if ref = adder.ref then (Integer.binary? .add x y).map fun c => .yields [.int c] heap
    else if ref = masker.ref then
      ((Integer.binary? .add x y).bind fun c => Integer.binary? .xor c (.int32 0x5A#32)).map
        fun c => .yields [.int c] heap
    else none
  | _, _, _, _ => none

def maskedInterp : Interp Unit Nat Unit where
  effect i taken frame :=
    match i.loadedArgument? with
    | some n => if taken = [] then some (.yields [frame.args n] frame) else none
    | none => (maskedMeaning i.opcode i.operand taken frame.heap).map (Answer.inside frame)
  way _ _ _ := none

theorem mem_maskedContext {token : Token} {callee : Method}
    (found : maskedContext.methods.resolve? token = some callee) :
    callee.token = token ∧ (callee = adder ∨ callee = masker) := by
  obtain ⟨listed, named⟩ := MethodTable.resolve?_some found
  have both : (MethodTable.ofList [adder, masker]).methods = [adder, masker] := by decide
  exact ⟨named, by simpa [both] using listed⟩

theorem ref_maskedContext {ref : MethodRef} {callee : Method}
    (found : maskedContext.methods.resolve? ref.token = some callee) (fits : ref.Fits callee) :
    ref = callee.ref := by
  obtain ⟨token, params, hasThis, returns⟩ := ref
  obtain ⟨named, -⟩ := mem_maskedContext found
  obtain ⟨rfl, rfl, rfl, -⟩ := fits
  rw [Method.ref, named]

theorem maskedInterp_binary (i : Instr) {op : BinaryOp} (combines : i.opcode = .binary op)
    (rest : List Instr) (y x : Constant) (frame : Frame Unit Nat) :
    maskedInterp.runPlain (i :: rest) ⟨[.int y, .int x], frame⟩ =
      match Integer.binary? op x y with
      | some c => maskedInterp.runPlain rest ⟨[.int c], frame⟩
      | none => .undefined := by
  obtain ⟨id, opcode, operand, offset⟩ := i
  cases combines
  cases result : Integer.binary? op x y with
  | some c => simp [Interp.runPlain, Interp.step, Instr.constant?, Instr.loadedLocal?,
      Instr.storedLocal?, Interp.compute, result, Run.bind]
  | none => simp [Interp.runPlain, Interp.step, Instr.constant?, Instr.loadedLocal?,
      Instr.storedLocal?, Interp.compute, result, Run.bind, Interp.call, Instr.stackEffect?,
      Opcode.fixedStack, maskedInterp, Instr.loadedArgument?, maskedMeaning]

theorem maskedInterp_adder (rest : List Instr) (y x : Constant) (frame : Frame Unit Nat) :
    maskedInterp.runPlain (⟨2, .call, .method adder.ref, 4⟩ :: rest) ⟨[.int y, .int x], frame⟩ =
      match Integer.binary? .add x y with
      | some c => maskedInterp.runPlain rest ⟨[.int c], frame⟩
      | none => .undefined := by
  have effect : maskedInterp.effect ⟨2, .call, .method adder.ref, 4⟩ [.int y, .int x] frame =
      ((Integer.binary? .add x y).map fun c => Answer.yields [.int c] frame.heap).map
        (Answer.inside frame) := rfl
  have known : Instr.stackEffect? false ⟨2, .call, .method adder.ref, 4⟩ = some ⟨2, 1⟩ := rfl
  rw [Interp.runPlain, step_call rfl, Interp.call]
  simp only [known, Option.map_some, Option.getD_some, List.length_cons, List.length_nil,
    Nat.lt_irrefl, if_false, List.take_succ_cons, List.take_nil, effect]
  cases Integer.binary? .add x y <;> rfl

theorem adder_invoked (y x : Value Unit) (heap : Nat) :
    maskedMeaning .call (.method adder.ref) [y, x] heap =
      maskedInterp.invoke (fun _ => .other ()) adder [⟨0, .ldarg .short, .argument 0, 0⟩,
        ⟨1, .ldarg .short, .argument 1, 2⟩, ⟨2, .binary .add, .none, 4⟩] [y, x] heap := by
  cases y with
  | other => rfl
  | int y =>
    cases x with
    | other => rfl
    | int x =>
      change _ = (maskedInterp.runPlain [⟨2, .binary .add, .none, 4⟩]
        ⟨[.int y, .int x], _⟩).returned? 1
      rw [maskedInterp_binary _ rfl]
      change Option.map _ (Integer.binary? .add x y) = _
      cases Integer.binary? .add x y <;> rfl

theorem masker_invoked (y x : Value Unit) (heap : Nat) :
    maskedMeaning .call (.method masker.ref) [y, x] heap =
      maskedInterp.invoke (fun _ => .other ()) masker [⟨0, .ldarg .short, .argument 0, 0⟩,
        ⟨1, .ldarg .short, .argument 1, 2⟩, ⟨2, .call, .method adder.ref, 4⟩,
        ⟨3, .ldcI4S, .immediate (.int8 0x5A#8), 9⟩, ⟨4, .binary .xor, .none, 11⟩] [y, x] heap := by
  cases y with
  | other => rfl
  | int y =>
    cases x with
    | other => rfl
    | int x =>
      change Option.map _ ((Integer.binary? .add x y).bind _) = (maskedInterp.runPlain
        [⟨2, .call, .method adder.ref, 4⟩, ⟨3, .ldcI4S, .immediate (.int8 0x5A#8), 9⟩,
          ⟨4, .binary .xor, .none, 11⟩] ⟨[.int y, .int x], _⟩).returned? 1
      rw [maskedInterp_adder]
      cases Integer.binary? .add x y with
      | none => rfl
      | some c =>
        change Option.map _ (Integer.binary? .xor c _) = (maskedInterp.runPlain
          [⟨4, .binary .xor, .none, 11⟩] ⟨[.int (.int32 0x5A#32), .int c], _⟩).returned? 1
        rw [maskedInterp_binary _ rfl]
        cases Integer.binary? .xor c (.int32 0x5A#32) <;> rfl

theorem maskedInterp_modular :
    maskedInterp.Modular maskedContext.methods (fun _ => .other ()) maskedMeaning where
  apart := by
    intro i stays taken frame
    have none : i.loadedArgument? = none := by
      cases op : i.opcode <;> simp_all [Instr.usesFrame, Instr.loadedArgument?]
    simp only [maskedInterp, none]
  arity := by
    intro i taken heap pushed after effect yields known
    unfold maskedMeaning at yields
    split at yields
    · rename_i ref y x heap op operand
      simp only [Instr.stackEffect?, op, Instr.method?, operand, Option.map_some,
        Option.some.injEq] at known
      subst known
      split at yields
      · rename_i same
        obtain ⟨c, -, made⟩ := Option.map_eq_some_iff.mp yields
        cases made
        rw [same]
        rfl
      · split at yields
        · rename_i same
          obtain ⟨c, -, made⟩ := Option.map_eq_some_iff.mp yields
          cases made
          rw [same]
          rfl
        · cases yields
    · cases yields
  argument := by
    intro i n loads frame
    simp only [maskedInterp, loads, if_true]
  call := by
    intro ref callee code found fits runs taken heap long
    cases ref_maskedContext found fits
    obtain ⟨-, body, last, readable, -, text, -⟩ := runs
    have front : code = body.instrs.dropLast := by rw [text, List.dropLast_concat]
    obtain ⟨-, known⟩ := mem_maskedContext found
    obtain ⟨y, x, rfl⟩ : ∃ y x, taken = [y, x] := by
      rcases known with rfl | rfl <;> exact List.length_eq_two.mp long
    rcases known with rfl | rfl
    · cases readable
      rw [front]
      exact adder_invoked y x heap
    · cases readable
      rw [front]
      exact masker_invoked y x heap

theorem maskedCall_agrees (id : BlockId) (b : Block) (live : maskedCall.block? id = some b) :
    maskedContext.methods.Agrees b.instrs := by
  have listed := Graph.block?_mem live
  simp only [maskedCall, List.mem_singleton, Option.some.injEq] at listed
  subst listed
  decide

theorem maskedContext_coherent : maskedContext.methods.Coherent :=
  MethodTable.coherent (by decide)

theorem maskedCall_refines_blocks :
    maskedInterp.Modular maskedContext.methods (fun _ => .other ()) maskedMeaning ∧
      maskedContext.methods.Coherent ∧
      (∀ id b, maskedCall.block? id = some b → maskedContext.methods.Agrees b.instrs) ∧
      (pass.run 0 maskedContext maskedCall).result = .ok true ∧
      (∃ b b', maskedCall.block? 0 = some b ∧
        (pass.run 0 maskedContext maskedCall).graph.block? 0 = some b' ∧
        maskedInterp.Refines true b b') ∧
      ∃ code, splice? maskedContext depthLimit [] masker.token = some code ∧
        ∃ depth, Apart (maskedInterp.runPlain (expand 6 ⟨3, .call, .method masker.ref, 6⟩ code)) 2
          depth := by
  obtain ⟨-, refined, above⟩ := pass_refines_blocks maskedInterp true 0 maskedContext maskedCall _ _
    maskedInterp_modular maskedContext_coherent maskedCall_agrees
  refine ⟨maskedInterp_modular, maskedContext_coherent, maskedCall_agrees, rfl, ?_, ?_⟩
  · obtain ⟨b', live, refines⟩ := refined 0 _ rfl
    exact ⟨_, b', rfl, live, refines⟩
  · obtain ⟨callee, found, stays⟩ := above masker.token _ rfl
    have same : maskedContext.methods.resolve? masker.token = some masker := by decide
    cases same.symm.trans found
    exact ⟨_, rfl, stays 6 ⟨3, .call, .method masker.ref, 6⟩ _ List.prefix_rfl⟩

end Unravel.Inline
