import Unravel.Proofs.Fold.Mirror

/-!
Folding a whole block. A decided terminator consumes known values, so its sources are a plan for
the stack in front of it. Going back over the instructions, that plan becomes one for every state
of the simulation; at the start of the block nothing is known and nothing can go.
-/
namespace Unravel.Fold
variable {O H X : Type} {interp : Interp O H X} {returns : Bool}
variable {pinned : List Nat} {extra : Bool} {t : Nat} {i : Instr} {s : State} {b : Block}

theorem known_of_pop {top : Known} (popped : s.pop.1 = some top) :
    ∃ rest, s.stack = some top :: rest ∧ s.pop.2.stack = rest := by
  cases stack : s.stack with
  | nil => simp [State.pop, stack] at popped
  | cons slot rest =>
    simp only [State.pop, stack, List.headD_cons] at popped
    exact ⟨rest, by rw [popped], by simp [State.pop, stack]⟩

/-- What a terminator is decided on: it takes the known values `ks`, the top first, and goes the
    way that these integers send it. -/
structure Decided (O : Type) (b : Block) (i : Instr) (s : State) (d : Decision) (ks : List Known)
    (rest : List (Option Known)) (way : Way) : Prop where
  chooses : (∃ c form, i.opcode = .branch c form) ∨ i.opcode = .switch
  stack : s.stack = ks.map some ++ rest
  taken : ks.length = i.opcode.fixedStack.pops
  sends : Interp.integerWay? (O := O) b i (ks.map fun k => .int k.value) = some way
  follow : b.follow way = d.target.or b.fall
  sources : d.sources.Perm (ks.flatMap Known.sources)

theorem decided_of_branch (O : Type) {d : Decision} {condition : Condition} {form : Form}
    (op : i.opcode = .branch condition form) (decided : decide? b i s = some d) :
    ∃ ks rest way, Decided O b i s d ks rest way := by
  simp only [decide?, op] at decided
  obtain ⟨target, first, decided⟩ := Option.bind_eq_some_iff.mp decided
  obtain ⟨top, popped, decided⟩ := Option.bind_eq_some_iff.mp decided
  obtain ⟨rest, stack, below⟩ := known_of_pop popped
  have named : b.targets[0]? = some target := by rw [← List.head?_eq_getElem?, first]
  split at decided
  · cases decided
    refine ⟨[top], rest, if Integer.isZero top.value then .onward else .target 0,
      .inl ⟨_, _, op⟩, stack, by rw [op]; rfl, ?_, ?_, by simp⟩
    · simp only [Interp.integerWay?, op, List.map_cons, List.map_nil]
    · rw [← Integer.constant_isZero_eq]
      cases top.value.isZero <;> simp [Block.follow, named]
  · cases decided
    refine ⟨[top], rest, if Integer.isZero top.value then .target 0 else .onward,
      .inl ⟨_, _, op⟩, stack, by rw [op]; rfl, ?_, ?_, by simp⟩
    · simp only [Interp.integerWay?, op, List.map_cons, List.map_nil]
    · rw [← Integer.constant_isZero_eq]
      cases top.value.isZero <;> simp [Block.follow, named]
  · rename_i notTrue notFalse
    obtain ⟨second, poppedNext, decided⟩ := Option.bind_eq_some_iff.mp decided
    obtain ⟨taken, outcome, decided⟩ := Option.bind_eq_some_iff.mp decided
    cases decided
    obtain ⟨deep, stackNext, -⟩ := known_of_pop poppedNext
    rw [show rest = _ from below.symm.trans stackNext] at stack
    have two : condition.arity = 2 := by cases condition <;> simp_all [Condition.arity]
    refine ⟨[top, second], deep, if taken then .target 0 else .onward, .inl ⟨_, _, op⟩, stack,
      by rw [op]; exact two.symm, ?_, ?_, ?_⟩
    · rw [Integer.constant_branch?_eq] at outcome
      simp only [Interp.integerWay?, op, List.map_cons, List.map_nil]
      cases condition <;> simp_all
    · cases taken <;> simp [Block.follow, named]
    · simpa using List.perm_append_comm

theorem decided_of_switch (O : Type) {d : Decision} (op : i.opcode = .switch)
    (decided : decide? b i s = some d) : ∃ ks rest way, Decided O b i s d ks rest way := by
  simp only [decide?, op] at decided
  obtain ⟨top, popped, decided⟩ := Option.bind_eq_some_iff.mp decided
  obtain ⟨after, falls, decided⟩ := Option.bind_eq_some_iff.mp decided
  cases decided
  obtain ⟨rest, stack, -⟩ := known_of_pop popped
  refine ⟨[top], rest, if Integer.caseIndex top.value < b.targets.length then
    .target (Integer.caseIndex top.value) else .onward, .inr op, stack, by rw [op]; rfl, ?_, ?_,
    by simp⟩
  · simp only [Interp.integerWay?, op, List.map_cons, List.map_nil]
  · rw [← Integer.constant_caseIndex_eq]
    split
    · rename_i inside
      simp [Block.follow, inside]
    · rename_i beyond
      have none : b.targets[top.value.caseIndex]? = none := by simpa using beyond
      simp [Block.follow, none]

theorem decide?_decided (O : Type) {d : Decision} (decided : decide? b i s = some d) :
    ∃ ks rest way, Decided O b i s d ks rest way := by
  cases op : i.opcode with
  | branch condition form => exact decided_of_branch O op decided
  | switch => exact decided_of_switch O op decided
  | _ => simp [decide?, op] at decided

/-- A decided terminator goes where it was decided to, with nothing but the consumed values gone
    from the stack. -/
theorem decided_terminates (interp : Interp O H X) (returns : Bool) {d : Decision}
    (decided : decide? b i s = some d) :
    ∃ gone, Plan s.stack gone d.sources ∧ ∀ m : Machine O H, s.Tracks m →
      interp.terminate returns b i m =
        .goes ({ m with stack := keep gone m.stack }, d.target.or b.fall) := by
  obtain ⟨ks, rest, way, decided⟩ := decide?_decided O decided
  obtain ⟨gone, ⟨base, choice, perm⟩, same⟩ := plan_nothing rest
  rw [decided.stack]
  refine ⟨_, ⟨_, choice_all true choice ks, ?_⟩, ?_⟩
  · rw [List.nil_perm.mp perm]
    simpa using decided.sources
  · intro m tracks
    have chosen : interp.terminate returns b i m = interp.choose b i m := by
      rcases decided.chooses with ⟨c, form, op⟩ | op <;> simp only [Interp.terminate, op]
    have reads := tracks.stack
    rw [decided.stack] at reads
    obtain ⟨below, stack, -⟩ := reads_known reads
    have count : ks.length = (ks.map fun k => (Value.int k.value : Value O)).length := by simp
    rw [chosen, Interp.choose, ← decided.taken, stack, if_neg (by simp)]
    rw [List.take_left' count.symm, List.drop_left' count.symm, decided.sends]
    rw [count, keep_all, if_pos rfl, same, ← decided.follow]
    rfl

def foldFrom (final : State) (t : Nat) (code : List Instr) : List Instr :=
  code.mapIdx fun k i => foldInstr final (t + k) i

@[simp] theorem foldFrom_cons (final : State) (t : Nat) (i : Instr) (rest : List Instr) :
    foldFrom final t (i :: rest) = foldInstr final t i :: foldFrom final (t + 1) rest := by
  simp only [foldFrom, List.mapIdx_cons, Nat.add_zero, List.cons.injEq, true_and]
  congr 1
  funext k j
  rw [Nat.add_assoc, Nat.add_comm k 1]

theorem foldFrom_sound (sound : s.Sound pinned t) (code : List Instr) :
    foldFrom s t code = code := by
  induction code generalizing t with
  | nil => rfl
  | cons i rest ih =>
    have stays : t ∉ s.erased := fun inside => Nat.lt_irrefl t (sound.erased t inside)
    rw [foldFrom_cons, foldInstr_kept stays sound.lookup_none, ih sound.later]

theorem load_opcode (c : Constant) :
    c.load.1 = .ldcI8 ∨ c.load.1 = .ldcI4 ∨ c.load.1 = .ldcI4S ∨ ∃ n, c.load.1 = .ldcI4Fixed n := by
  cases c with
  | int64 v => exact .inl rfl
  | int32 v =>
    simp only [Constant.load, loadInt32]
    split
    · exact .inr (.inr (.inr ⟨_, rfl⟩))
    · split
      · exact .inr (.inr (.inl rfl))
      · exact .inr (.inl rfl)

theorem foldInstr_cases (final : State) (n : Nat) (i : Instr) :
    foldInstr final n i = i ∨ foldInstr final n i = i.erase ∨
      ∃ c : Constant, foldInstr final n i = { i with opcode := c.load.1, operand := c.load.2 } := by
  unfold foldInstr
  split
  · exact .inr (.inl rfl)
  · split
    · exact .inr (.inr ⟨_, rfl⟩)
    · exact .inl rfl

theorem foldInstr_isTerminal (final : State) (plain : i.isTerminal = false) :
    (foldInstr final t i).isTerminal = false := by
  rcases foldInstr_cases final t i with same | same | ⟨c, same⟩
  · rw [same]
    exact plain
  · rw [same]
    rfl
  · rw [same]
    rcases load_opcode c with op | op | op | ⟨n, op⟩ <;>
      simp [Instr.isTerminal, Instr.flow, op, Opcode.flow, Flow.endsBlock]

/-- The code of a block whose terminator was decided, up to the block that it goes to. -/
def settleCode (first : Option InstrId) : Option (Option BlockId) → List Instr → List Instr
  | none, code => code
  | some (some _), code =>
    code.dropLast ++ (code.getLast?.map (Graph.jumpInstr first)).toList
  | some none, code => code.dropLast ++ (code.getLast?.map Instr.erase).toList

def settle (first : Option InstrId) (decision : Option (Option BlockId)) (b : Block) : Block :=
  { b with
    instrs := settleCode first decision b.instrs
    targets := match decision with
      | none => b.targets
      | some target => target.toList
    fall := match decision with
      | some (some _) => none
      | _ => b.fall }

theorem settleCode_cons (first : Option InstrId) (decision : Option (Option BlockId)) (i : Instr)
    {rest : List Instr} (more : rest ≠ []) :
    settleCode first decision (i :: rest) = i :: settleCode first decision rest := by
  obtain ⟨j, rest, rfl⟩ := List.exists_cons_of_ne_nil more
  rcases decision with _ | _ | _ <;> simp [settleCode, List.getLast?_cons_cons]

theorem settleCode_ne_nil (first : Option InstrId) (decision : Option (Option BlockId))
    {code : List Instr} (some_ : code ≠ []) : settleCode first decision code ≠ [] := by
  rcases code.eq_nil_or_concat with empty | ⟨front, last, rfl⟩
  · exact absurd empty some_
  · rcases decision with _ | _ | _ <;> simp [settleCode]

theorem lookup_append_ne {known : List (Nat × Constant)} {j : Nat} (c : Constant) (away : j ≠ t) :
    (known ++ [(t, c)]).lookup j = known.lookup j := by
  have miss : (j == t) = false := by simpa using away
  simp [List.lookup_append, List.lookup_cons, miss]

theorem Stepped.loads_before {s' : State} (stepped : Stepped pinned extra t i s s') {j : Nat}
    (before : j < t) : s'.loads.lookup j = s.loads.lookup j := by
  have fold : ∀ (s : State) value sources,
      (s.fold extra t value sources).loads.lookup j = s.loads.lookup j := by
    intro s value sources
    unfold State.fold
    split
    · exact lookup_append_ne value (Nat.ne_of_lt before)
    · rfl
  cases stepped with
  | constant | nop | pop | skipped => rfl
  | loaded n value access =>
    rcases loadLocal_cases extra t s n with ⟨c, -, same⟩ | ⟨-, same⟩ <;> rw [same]
    · cases extra with
      | true => exact lookup_append_ne c (Nat.ne_of_lt before)
      | false => rfl
    · rfl
  | stored n value load access => rw [(storeLocal_fields pinned s n).2.2]
  | dup op => rw [(duplicate_fields t s).2]
  | unary f op =>
    rcases foldUnary_cases extra t f s with ⟨a, rest, -, same⟩ | ⟨-, same⟩ <;> rw [same]
    · exact fold _ _ _
    · rfl
  | binary f op =>
    rcases foldBinary_cases extra t f s with ⟨a, c, v, rest, -, -, same⟩ | ⟨-, same⟩ <;> rw [same]
    · exact fold _ _ _
    · rfl

theorem runCode_cons {rest : List Instr} (goes : rest ≠ [] ∨ i.isTerminal = false)
    (m : Machine O H) :
    interp.runCode returns b (i :: rest) m =
      (interp.step returns i m).bind (interp.runCode returns b rest) := by
  rcases goes with more | plain
  · simp [Interp.runCode, more]
  · simp [Interp.runCode, plain]

theorem runCode_last (ends : i.isTerminal = true) (m : Machine O H) :
    interp.runCode returns b [i] m = interp.terminate returns b i m := by
  simp [Interp.runCode, ends]

theorem runCode_edges {b' : Block} (targets : b.targets = b'.targets) (fall : b.fall = b'.fall)
    (code : List Instr) (m : Machine O H) :
    interp.runCode returns b code m = interp.runCode returns b' code m := by
  induction code generalizing m with
  | nil => simp only [Interp.runCode, fall]
  | cons i rest ih =>
    have follow : b.follow = b'.follow := by
      funext way
      cases way <;> simp only [Block.follow, targets, fall]
    have way : ∀ values : List (Value O),
        Interp.integerWay? b i values = Interp.integerWay? b' i values := by
      intro values
      simp only [Interp.integerWay?, targets]
    simp only [Interp.runCode, Interp.terminate, Interp.choose, targets, follow, way, funext ih]

theorem runCode_settled (first : Option InstrId) (target : Option BlockId) (m : Machine O H) :
    interp.runCode returns (settle first (some target) b) (settleCode first (some target) [i]) m =
      .goes (m, target.or b.fall) := by
  cases target with
  | none => rfl
  | some target => rfl

/-- The code from an index on in a simulation that ends in `final`, run on what is kept of the
    stack. Code whose effect is lost sight of stays as it is. -/
def Preserves (interp : Interp O H X) (returns : Bool) (b : Block) (final : State)
    (decision : Option (Option BlockId)) (t : Nat) (code : List Instr) (s : State) : Prop :=
  ∃ gone claims, Plan s.stack gone claims ∧
    Agree t final.erased (dropSources claims s.erased) ∧
    (∀ j < t, final.loads.lookup j = s.loads.lookup j) ∧
    ∀ (first : Option InstrId) (m : Machine O H), s.Tracks m →
      interp.runCode returns b code m ≠ .underflow →
      interp.runCode returns (settle first decision b)
          (settleCode first decision (foldFrom final t code))
          { m with stack := keep gone m.stack } =
        interp.runCode returns b code m

theorem preserves_unfolded (sound : s.Sound pinned t) (code : List Instr) :
    Preserves interp returns b s none t code s := by
  obtain ⟨gone, plan, same⟩ := plan_nothing s.stack
  refine ⟨gone, [], plan, Agree.refl _ _, fun _ _ => rfl, ?_⟩
  intro first m _ _
  rw [same, foldFrom_sound sound]
  rfl

theorem preserves_decided {d : Decision} (ends : i.isTerminal = true)
    (decided : decide? b i s = some d) :
    Preserves interp returns b { s with erased := dropSources d.sources s.erased }
      (some d.target) t [i] s := by
  obtain ⟨gone, plan, terminates⟩ := decided_terminates interp returns decided
  refine ⟨gone, d.sources, plan, Agree.refl _ _, fun _ _ => rfl, ?_⟩
  intro first m tracks _
  rw [foldFrom_cons, runCode_last ends, terminates m tracks]
  exact runCode_settled first d.target _

theorem preserves_step {s' final : State} {decision : Option (Option BlockId)} {rest : List Instr}
    (lawful : interp.Lawful returns (· ∈ pinned)) (goes : rest ≠ [] ∨ i.isTerminal = false)
    (effects : i.stackEffect? true = i.stackEffect? returns) (sound : s.Sound pinned t)
    (stepped : Stepped pinned extra t i s s') (last : rest = [] → decision = none)
    (preserves : Preserves interp returns b final decision (t + 1) rest s') :
    Preserves interp returns b final decision t (i :: rest) s := by
  obtain ⟨after, late, planned, agree, loads, ran⟩ := preserves
  obtain ⟨before, early, plan, back, mirrors⟩ := stepped_mirrored lawful effects sound stepped final
    after late planned (agree t (Nat.lt_succ_self t)) (loads t (Nat.lt_succ_self t))
  refine ⟨before, early, plan, (agree.mono (Nat.le_succ t)).trans back, ?_, ?_⟩
  · intro j below
    rw [loads j (Nat.lt_succ_of_lt below), stepped.loads_before below]
  · intro first m tracks enough
    have folded : settleCode first decision (foldFrom final t (i :: rest)) =
        foldInstr final t i :: settleCode first decision (foldFrom final (t + 1) rest) := by
      rw [foldFrom_cons]
      cases rest with
      | nil =>
        rw [last rfl]
        rfl
      | cons j rest => exact settleCode_cons first decision _ (by simp)
    have goes' : settleCode first decision (foldFrom final (t + 1) rest) ≠ [] ∨
        (foldInstr final t i).isTerminal = false := by
      refine goes.imp (fun more => settleCode_ne_nil first decision ?_) fun plain => ?_
      · simpa [foldFrom] using more
      · exact foldInstr_isTerminal final plain
    rw [folded, runCode_cons goes']
    rw [runCode_cons goes] at enough ⊢
    cases mirrors m tracks with
    | underflow short => exact absurd (by rw [short]; rfl) enough
    | goes next goes mirrored tracked =>
      rw [goes] at enough ⊢
      rw [mirrored]
      exact ran first next tracked enough
    | stops ends same =>
      rw [same]
      cases stop : interp.step returns i m with
      | goes next => exact absurd stop (ends next)
      | raised | undefined | underflow => rfl

theorem simulate_preserves {final : State} {decision : Option (Option BlockId)}
    (lawful : interp.Lawful returns (· ∈ pinned)) {code : List Instr}
    (effects : ∀ i ∈ code.dropLast, i.stackEffect? true = i.stackEffect? returns)
    (sound : s.Sound pinned t)
    (ran : simulate pinned extra b t code s = (final, decision)) :
    Preserves interp returns b final decision t code s := by
  have simulated := simulate_simulated ran
  clear ran
  induction simulated with
  | ended => exact preserves_unfolded sound []
  | decided ends found => exact preserves_decided ends found
  | undecided => exact preserves_unfolded sound _
  | stuck => exact preserves_unfolded sound _
  | @step t i rest s s' final decision goes stepped later ih =>
    have effect : i.stackEffect? true = i.stackEffect? returns := by
      cases rest with
      | nil => exact stackEffect?_eq (by simpa using goes) true returns
      | cons j rest => exact effects i (by simp)
    refine preserves_step lawful goes effect sound stepped ?_ (ih ?_ (stepped.sound sound))
    · rintro rfl
      cases later
      rfl
    · cases rest with
      | nil => simp
      | cons j rest => exact fun k inside => effects k (by simp [inside])

end Unravel.Fold
