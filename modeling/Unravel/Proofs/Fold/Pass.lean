import Unravel.Proofs.Fold.Block
import Unravel.Proofs.Graph.Edits

/-!
Folding keeps the meaning of every block. Each block that is folded is refined by its folded form,
and a run of the pass folds blocks one after another. Variables whose address is taken are pinned
throughout, also where folding has erased the code that took it.
-/
namespace Unravel
variable {O H X : Type} {interp : Interp O H X} {returns : Bool}

/-- From every stack on which the first block does not run out of values, the second one ends as it
    does: with the same stack and frame in front of the same block, or with the same exception.
    Stacks on which the first block underflows are left out: there the second one may end in any
    way. -/
def Interp.Refines (interp : Interp O H X) (returns : Bool) (b b' : Block) : Prop :=
  ∀ m, interp.runBlock returns b m ≠ .underflow →
    interp.runBlock returns b' m = interp.runBlock returns b m

theorem Interp.Refines.refl (b : Block) : interp.Refines returns b b := fun _ _ => rfl

theorem Interp.Refines.trans {a b c : Block} (first : interp.Refines returns a b)
    (second : interp.Refines returns b c) : interp.Refines returns a c := by
  intro m enough
  have same := first m enough
  rw [← same] at enough ⊢
  exact second m enough

namespace Fold
variable {pinned : List Nat} {extra : Bool} {g : Graph} {b : Block} {id : BlockId}

def folded (first : Option InstrId) (final : State) (decision : Option (Option BlockId))
    (b : Block) : Block :=
  settle first decision { b with instrs := b.instrs.mapIdx (foldInstr final) }

theorem folded_refines_of_effects {final : State} {decision : Option (Option BlockId)}
    (lawful : interp.Lawful returns (· ∈ pinned))
    (effects : ∀ i ∈ b.instrs.dropLast, i.stackEffect? true = i.stackEffect? returns)
    (ran : simulate pinned extra b 0 b.instrs {} = (final, decision)) (first : Option InstrId) :
    interp.Refines returns b (folded first final decision b) := by
  obtain ⟨gone, claims, ⟨base, choice, -⟩, -, -, preserved⟩ :=
    simulate_preserves lawful effects (sound_start pinned) ran
  cases choice
  have code : foldFrom final 0 b.instrs = b.instrs.mapIdx (foldInstr final) := by
    simp [foldFrom]
  intro m enough
  have same := preserved first m ⟨trivial, by rintro n c ⟨⟩⟩ enough
  rw [code, keep_nil] at same
  rw [Interp.runBlock, Interp.runBlock, ← same]
  refine runCode_edges ?_ ?_ _ m <;> rfl

theorem folded_refines {final : State} {decision : Option (Option BlockId)}
    (lawful : interp.Lawful returns (· ∈ pinned)) (straight : b.Straight)
    (ran : simulate pinned extra b 0 b.instrs {} = (final, decision)) (first : Option InstrId) :
    interp.Refines returns b (folded first final decision b) :=
  folded_refines_of_effects lawful
    (fun i inside => stackEffect?_eq (straight i inside) true returns) ran first

theorem folded_straight (first : Option InstrId) (final : State)
    (decision : Option (Option BlockId)) (straight : b.Straight) :
    (folded first final decision b).Straight := by
  have front : (settleCode first decision (b.instrs.mapIdx (foldInstr final))).dropLast =
      (b.instrs.dropLast).mapIdx (foldInstr final) := by
    rcases b.instrs.eq_nil_or_concat with empty | ⟨front, last, code⟩
    · rw [empty]
      rcases decision with _ | _ | _ <;> rfl
    · rw [code]
      rcases decision with _ | _ | _ <;> simp [settleCode, List.mapIdx_concat]
  intro i inside
  have inside : i ∈ (b.instrs.dropLast).mapIdx (foldInstr final) := front ▸ inside
  obtain ⟨n, below, rfl⟩ := List.mem_mapIdx.mp inside
  exact foldInstr_isTerminal final (straight _ (List.getElem_mem below))

theorem foldBlock_block? {g' : Graph} {counts : Nat × Bool} {final : State}
    {decision : Option (Option BlockId)}
    (ran : simulate pinned extra b 0 b.instrs {} = (final, decision))
    (done : foldBlock pinned extra g id b = (g', .ok counts)) :
    ∃ first, ∀ other, g'.block? other =
      if id = other then (g.block? other).map (folded first final decision)
      else g.block? other := by
  have edited : ∀ first other,
      ((g.modify id fun b => { b with instrs := b.instrs.mapIdx (foldInstr final) }).modify id
        (settle first decision)).block? other =
      if id = other then (g.block? other).map (folded first final decision)
      else g.block? other := by
    intro first other
    rw [Graph.block?_modify, Graph.block?_modify]
    split
    · rw [Option.map_map]
      rfl
    · rfl
  unfold foldBlock at done
  rw [ran] at done
  rcases decision with _ | _ | target
  · cases done
    refine ⟨none, ?_⟩
    intro other
    rw [Graph.block?_modify]
    rfl
  · dsimp only at done
    split at done
    · rename_i ended dropped
      cases done
      obtain ⟨-, -, -, -, rfl⟩ := Graph.dropTerminator_ok dropped
      exact ⟨none, edited none⟩
    · cases done
  · dsimp only at done
    split at done
    · rename_i ended redirected
      cases done
      obtain ⟨destination, -, -, -, -, rfl⟩ := Graph.redirect_ok redirected
      exact ⟨destination.firstId?, edited destination.firstId?⟩
    · cases done

theorem foldBlock_exchanges {g' : Graph} (live : g.block? id = some b) {counts : Nat × Bool}
    {final : State} {decision : Option (Option BlockId)}
    (ran : simulate pinned extra b 0 b.instrs {} = (final, decision))
    (done : foldBlock pinned extra g id b = (g', .ok counts)) :
    ∃ first, ∀ other, g'.block? other =
      if id = other then some (folded first final decision b) else g.block? other := by
  obtain ⟨first, blocks⟩ := foldBlock_block? ran done
  refine ⟨first, fun other => ?_⟩
  rw [blocks]
  split
  · rename_i same
    rw [← same, live]
    rfl
  · rfl

theorem runOn_refines {ctx : PassContext} (lawful : interp.Lawful returns (· ∈ pinned))
    {place : BlockId} {changed : Bool} (straight : ∀ id b, g.block? id = some b → b.Straight)
    (ran : (runOn ctx pinned g place).result = .ok changed) (found : g.block? id = some b) :
    (∀ id b, (runOn ctx pinned g place).graph.block? id = some b → b.Straight) ∧
      ∃ b', (runOn ctx pinned g place).graph.block? id = some b' ∧ interp.Refines returns b b' := by
  cases foundHere : g.block? place with
  | none =>
    simp only [runOn, foundHere] at ran ⊢
    exact ⟨straight, b, found, .refl b⟩
  | some c =>
    rcases simulated : simulate pinned ctx.config.foldExtra c 0 c.instrs {} with ⟨final, decision⟩
    rcases done : foldBlock pinned ctx.config.foldExtra g place c with ⟨g', outcome⟩
    cases outcome with
    | error e =>
      simp only [runOn, foundHere, done] at ran
      cases ran
    | ok counts =>
      simp only [runOn, foundHere, done]
      obtain ⟨first, blocks⟩ := foldBlock_block? simulated done
      refine ⟨?_, ?_⟩
      · intro other d live
        rw [blocks] at live
        split at live
        · obtain ⟨before, was, rfl⟩ := Option.map_eq_some_iff.mp live
          exact folded_straight first final decision (straight other before was)
        · exact straight other d live
      · rw [blocks]
        split
        · rename_i same
          subst same
          cases found.symm.trans foundHere
          refine ⟨folded first final decision b, by rw [found]; rfl, ?_⟩
          exact folded_refines lawful (straight _ b found) simulated first
        · exact ⟨b, found, .refl b⟩

/-- A run over some blocks refines every block, if variables that may be written behind the back
    of the code are pinned. -/
theorem runAll_refines {ctx : PassContext} (lawful : interp.Lawful returns (· ∈ pinned))
    (ids : List BlockId) {changed : Bool}
    (straight : ∀ id b, g.block? id = some b → b.Straight)
    (ran : (runAll ctx pinned ids g).result = .ok changed) (found : g.block? id = some b) :
    ∃ b', (runAll ctx pinned ids g).graph.block? id = some b' ∧ interp.Refines returns b b' := by
  induction ids generalizing g b changed with
  | nil => exact ⟨b, found, .refl b⟩
  | cons first rest ih =>
    obtain ⟨⟨_, began⟩, ⟨_, went⟩, graph⟩ := PassRun.andThen_ok ran
    obtain ⟨straight', b', found', refined⟩ := runOn_refines lawful straight began found
    obtain ⟨b'', found'', refined'⟩ := ih straight' went found'
    rw [runAll, graph]
    exact ⟨b'', found'', refined.trans refined'⟩

theorem mem_pinnedLocals (g : Graph) (n : Nat) : n ∈ pinnedLocals g ↔ g.Exposes n := by
  have addressed : ∀ i : Instr, i.addressedLocal? = some n ↔
      ∃ form, i.opcode = .ldloca form ∧ i.operand = .localVar n := by
    rintro ⟨_, opcode, operand, _⟩
    cases opcode <;> cases operand <;> simp [Instr.addressedLocal?, Instr.localOperand?]
  simp only [pinnedLocals, List.mem_filterMap, List.mem_flatMap, addressed, Graph.Exposes]
  constructor
  · rintro ⟨i, ⟨b, live, inside⟩, form, takes⟩
    exact ⟨b, live, i, inside, form, takes⟩
  · rintro ⟨b, live, i, inside, form, takes⟩
    exact ⟨i, ⟨b, live, inside⟩, form, takes⟩

/-- A pass that went well left every block with a refinement in its place. -/
theorem pass_keeps_meaning (interp : Interp O H X) (returns : Bool) (round : Nat)
    (ctx : PassContext) (g : Graph) (straight : ∀ id b, g.block? id = some b → b.Straight)
    (lawful : interp.Lawful returns g.Exposes) {changed : Bool}
    (ran : (pass.run round ctx g).result = .ok changed) {id : BlockId} {b : Block}
    (live : g.block? id = some b) :
    ∃ b', (pass.run round ctx g).graph.block? id = some b' ∧ interp.Refines returns b b' := by
  have pinned : interp.Lawful returns (· ∈ pinnedLocals g) := by
    simp only [mem_pinnedLocals]
    exact lawful
  exact runAll_refines pinned g.layout straight ran live

/-- An interpretation under which an instruction with a known effect pushes values that are not
    integers and keeps the frame. -/
def unknownValues (returns : Bool) : Interp Unit Unit Unit where
  effect i _ frame := (i.stackEffect? returns).map fun effect =>
    .yields (List.replicate effect.pushes (.other ())) frame
  way _ _ _ := some .onward

theorem unknownValues_lawful (returns : Bool) (exposed : Nat → Prop) :
    (unknownValues returns).Lawful returns exposed where
  arity := by
    intro i taken frame pushed after effect yields known
    simp only [unknownValues, known, Option.map_some, Option.some.injEq, Effect.yields.injEq]
      at yields
    rw [← yields.1, List.length_replicate]
  keeps := by
    intro i taken frame pushed after n yields _
    simp only [unknownValues, Option.map_eq_some_iff, Effect.yields.injEq] at yields
    obtain ⟨effect, -, -, rfl⟩ := yields
    rfl

def copiedTest : Graph where
  slots := [
    some ⟨0, [⟨0, .ldcI4S, .immediate (.int8 2#8), 0⟩, ⟨1, .dup, .none, 2⟩,
      ⟨2, .stloc .short, .localVar 0, 3⟩, ⟨3, .branch .isTrue .long, .target 5, 5⟩], [2], some 1⟩,
    some ⟨1, [⟨4, .ret, .none, 10⟩], [], none⟩,
    some ⟨2, [⟨5, .ret, .none, 11⟩], [], none⟩]
  layout := [0, 1, 2]
  regions := []
  entry := 0
  nextInstr := 6
  locals := 1
  maxStack := 2

theorem copiedTest_straight (id : BlockId) (b : Block) (live : copiedTest.block? id = some b) :
    b.Straight := by
  have listed := Graph.block?_mem live
  simp only [copiedTest, List.mem_cons, Option.some.injEq, List.not_mem_nil, or_false] at listed
  rcases listed with rfl | rfl | rfl <;> unfold Block.Straight <;> decide

theorem copiedTest_keeps_meaning :
    (∀ id b, copiedTest.block? id = some b → b.Straight) ∧
      (unknownValues false).Lawful false copiedTest.Exposes ∧
      (pass.run 0 default copiedTest).result = .ok true ∧
      ∃ b b', copiedTest.block? 0 = some b ∧
        (pass.run 0 default copiedTest).graph.block? 0 = some b' ∧
        (unknownValues false).Refines false b b' := by
  refine ⟨copiedTest_straight, unknownValues_lawful false _, rfl, ?_⟩
  obtain ⟨b', left, refined⟩ := pass_keeps_meaning (unknownValues false) false 0 default copiedTest
    copiedTest_straight (unknownValues_lawful false _) rfl
    (show copiedTest.block? 0 = some _ from rfl)
  exact ⟨_, b', rfl, left, refined⟩

end Fold
end Unravel
