import Unravel.Proofs.Flow.Reshaping
import Unravel.Proofs.Graph.Complete
import Unravel.Proofs.Pass.Scheduling
import Unravel.Proofs.Stack.Levels

/-!
Passes keep the levels of the stack. Each block is entered at a depth of its own or not at all, and
hands on to its successors the depth that they are entered at. With these depths fixed once and for
all, no step of a schedule fails, and none of them disturbs the levels.
-/
namespace Unravel
variable {methods : Resolver} {returns : Bool} {entered : BlockId → Nat → Prop}

/-- A block that is entered at a depth runs to its end, and leads only to blocks that are entered
    at the depth it ends with. A return leaves nothing on the stack. -/
structure Block.Fits (returns : Bool) (entered : BlockId → Nat → Prop) (d : Nat) (b : Block) :
    Prop where
  complete : b.Complete
  level : ∃ e, b.exitLevel? returns d = some e ∧ (∀ s ∈ b.successors, entered s e) ∧
    ∀ i, b.instrs.getLast? = some i → i.opcode = .ret → e = 0

/-- Blocks fit the depths that they are entered at. Blocks that are not entered need not fit, but
    their branches can be decided as well. -/
structure Graph.Levelled (methods : Resolver) (returns : Bool) (entered : BlockId → Nat → Prop)
    (g : Graph) : Prop where
  workable : g.Workable
  agrees : ∀ {id b}, g.block? id = some b → methods.Agrees b.instrs
  entry : entered g.entry 0
  blocks : ∀ {id b d}, g.block? id = some b → entered id d → b.Fits returns entered d
  handlers : ∀ r ∈ g.regions, ∀ h, r.handlerEntry? = some h → entered h r.flags.entryDepth
  filters : ∀ r ∈ g.regions, ∀ f, r.filterEntry? = some f → entered f 1

namespace Graph.Levelled
variable {g g' : Graph} {id : BlockId} {b : Block}

theorem exchange (levelled : g.Levelled methods returns entered) (live : g.block? id = some b)
    (b' : Block) (workable : g'.Workable) (entry : g'.entry = g.entry)
    (regions : g'.regions = g.regions)
    (blocks : ∀ other, g'.block? other = if id = other then some b' else g.block? other)
    (agrees : methods.Agrees b'.instrs)
    (fits : ∀ d, b.Fits returns entered d → b'.Fits returns entered d) :
    g'.Levelled methods returns entered where
  workable := workable
  agrees := by
    intro other d found
    rw [blocks] at found
    split at found
    · cases found
      exact agrees
    · exact levelled.agrees found
  entry := by
    rw [entry]
    exact levelled.entry
  blocks := by
    intro other d depth found enters
    rw [blocks] at found
    split at found
    · rename_i same
      cases found
      subst same
      exact fits depth (levelled.blocks live enters)
    · exact levelled.blocks found enters
  handlers := by
    rw [regions]
    exact levelled.handlers
  filters := by
    rw [regions]
    exact levelled.filters

end Graph.Levelled

namespace Inline
variable {ctx : PassContext} {g : Graph} {id : BlockId} {b : Block}

theorem fits_expandBlock (filled : b.instrs ≠ []) (straight : b.Straight)
    (agrees : ctx.methods.Agrees b.instrs) (fresh : InstrId) {d : Nat}
    (fits : b.Fits returns entered d) : (expandBlock ctx fresh b).Fits returns entered d := by
  obtain ⟨e, level, leads, returned⟩ := fits.level
  obtain ⟨front, last, code⟩ := Block.exists_last filled
  have plain := (Block.straight_iff code).mp straight
  have kind := (expandBlock_shape ctx fresh filled straight).2.2
  have successors : (expandBlock ctx fresh b).successors = b.successors := by
    simp only [Block.successors, kind]
    rfl
  refine ⟨fits.complete.of_same kind rfl rfl, e, ?_, ?_, ?_⟩
  · obtain ⟨after, known, rfl⟩ := Option.map_eq_some_iff.mp level
    have expanded : levelAfter? returns d (expandBlock ctx fresh b).instrs = some after :=
      levelAfter?_expandAll agrees fresh known
    simp only [Block.exitLevel?, expanded, kind, Option.map_some]
  · rw [successors]
    exact leads
  · intro i final op
    obtain ⟨front', last', made, -, same⟩ := expandAll_shape ctx fresh last plain
    rw [← code] at made
    rw [expandBlock, made, List.getLast?_concat] at final
    cases final
    rcases same with rfl | ⟨-, open_⟩
    · exact returned i (by rw [code, List.getLast?_concat]) op
    · rw [Instr.isTerminal, Instr.flow, op] at open_
      cases open_

theorem inlineBlock_workable (workable : g.Workable) (live : g.block? id = some b) :
    (inlineBlock ctx g id b).graph.Workable where
  laid := inlineBlock_laid workable.laid live
  tight := inlineBlock_tight workable.tight workable.laid live
  forked := by
    refine workable.forked.exchange (inlineBlock_block? ctx live) ?_
    have kind := (expandBlock_shape ctx g.nextInstr (workable.laid.filled live)
      (workable.laid.straight live)).2.2
    rw [kind]
    exact workable.forked live

theorem inlineBlock_levelled (coherent : ctx.methods.Coherent)
    (levelled : g.Levelled ctx.methods returns entered) (live : g.block? id = some b) :
    (inlineBlock ctx g id b).graph.Levelled ctx.methods returns entered := by
  have filled := levelled.workable.laid.filled live
  have straight := levelled.workable.laid.straight live
  refine levelled.exchange live (expandBlock ctx g.nextInstr b)
    (inlineBlock_workable levelled.workable live) rfl rfl (inlineBlock_block? ctx live) ?_ ?_
  · exact agrees_expandAll coherent (levelled.agrees live) g.nextInstr
  · exact fun d => fits_expandBlock filled straight (levelled.agrees live) g.nextInstr

theorem pass_levelled (coherent : ctx.methods.Coherent)
    (levelled : g.Levelled ctx.methods returns entered) (round : Nat) :
    (pass.run round ctx g).Fine (·.Levelled ctx.methods returns entered) := by
  have all : ∀ ids, ∀ {g : Graph}, g.Levelled ctx.methods returns entered →
      (runAll ctx ids g).Fine (·.Levelled ctx.methods returns entered) := by
    intro ids
    induction ids with
    | nil => exact fun levelled => ⟨⟨false, rfl⟩, levelled⟩
    | cons id rest ih =>
      intro g levelled
      rw [runAll]
      split
      · exact ih levelled
      · rename_i b live
        have once := inlineBlock_levelled coherent levelled live
        exact PassRun.Fine.andThen ⟨⟨_, rfl⟩, once⟩ ih
  exact all g.layout levelled

end Inline

namespace Fold
variable {pinned : List Nat} {extra : Bool} {ctx : PassContext} {g : Graph} {id : BlockId}
  {b : Block} {final : State} {decision : Option (Option BlockId)}

theorem decide?_leads {i : Instr} {s : State} {d : Decision} (kind : b.kind = .ofFlow i.flow)
    (decided : decide? b i s = some d) :
    (b.kind = .conditional ∨ b.kind = .switch ∧ b.fall ≠ none) ∧
      ∀ t, d.target = some t → t ∈ b.successors := by
  unfold decide? at decided
  split at decided
  · rename_i condition form op
    have test : b.kind = .conditional := by rw [kind, Instr.flow, op]; rfl
    obtain ⟨target, first, decided⟩ := Option.bind_eq_some_iff.mp decided
    refine ⟨.inl test, ?_⟩
    obtain ⟨top, -, decided⟩ := Option.bind_eq_some_iff.mp decided
    have goes : d.target = none ∨ d.target = some target := by
      split at decided
      · cases decided
        cases top.value.isZero <;> simp
      · cases decided
        cases top.value.isZero <;> simp
      · obtain ⟨below, -, decided⟩ := Option.bind_eq_some_iff.mp decided
        obtain ⟨taken, -, decided⟩ := Option.bind_eq_some_iff.mp decided
        cases decided
        cases taken <;> simp
    intro t chosen
    rcases goes with none | some_
    · cases none.symm.trans chosen
    · cases some_.symm.trans chosen
      simp [Block.successors, test, first]
  · rename_i op
    have cases_ : b.kind = .switch := by rw [kind, Instr.flow, op]; rfl
    obtain ⟨top, -, decided⟩ := Option.bind_eq_some_iff.mp decided
    obtain ⟨after, falls, decided⟩ := Option.bind_eq_some_iff.mp decided
    cases decided
    refine ⟨.inr ⟨cases_, by simp [falls]⟩, ?_⟩
    intro t chosen
    simp [Block.successors, cases_, List.mem_of_getElem? chosen]
  · cases decided

theorem terminator?_of_choice (kind : b.kind = .conditional ∨ b.kind = .switch) :
    b.terminator? ≠ none := by
  unfold Block.kind at kind
  unfold Block.terminator?
  cases last : b.instrs.getLast? with
  | none => simp [last] at kind
  | some i =>
    have ends : i.isTerminal = true := by
      rw [last] at kind
      dsimp only at kind
      rw [Instr.isTerminal]
      revert kind
      cases i.flow <;> simp [BlockKind.ofFlow, Flow.endsBlock]
    simp [ends]

theorem simulate_leads {target : Option BlockId} (forks : b.kind = .conditional → b.fall ≠ none)
    (ran : simulate pinned extra b 0 b.instrs {} = (final, some target)) :
    (b.kind = .conditional ∨ b.kind = .switch) ∧ b.fall ≠ none ∧
      ∀ t, target = some t → t ∈ b.successors := by
  obtain ⟨front, last, s, d, code, decided, rfl⟩ := simulate_decides ran
  obtain ⟨test | ⟨cases_, falls⟩, leads⟩ := decide?_leads (Block.kind_eq code) decided
  · exact ⟨.inl test, forks test, leads⟩
  · exact ⟨.inr cases_, falls, leads⟩

/-- A decision can be carried out: the block to jump to is live, or there is one to fall into. -/
def Feasible (g : Graph) (b : Block) : Option (Option BlockId) → Prop
  | none => True
  | some none => b.fall ≠ none
  | some (some target) => g.contains target = true

theorem foldBlock_ok_iff (live : g.block? id = some b)
    (ran : simulate pinned extra b 0 b.instrs {} = (final, decision)) :
    (∃ g' counts, foldBlock pinned extra g id b = (g', .ok counts)) ↔ Feasible g b decision := by
  have edited : (g.modify id (foldCode final)).block? id = some (foldCode final b) := by
    rw [Graph.block?_modify, if_pos rfl, live]
    rfl
  have there : ∀ target,
      (g.modify id (foldCode final)).contains target = g.contains target := by
    intro target
    rw [Graph.contains, Graph.contains, Graph.block?_modify]
    split <;> simp
  have ends : decision ≠ none → (foldCode final b).terminator? ≠ none := by
    intro decided
    obtain ⟨target, rfl⟩ := Option.ne_none_iff_exists'.mp decided
    obtain ⟨front, last, code, chooses⟩ := simulate_chooses ran
    refine terminator?_of_choice ?_
    rw [foldCode_kind ran, Block.kind_eq code]
    rcases chooses with flow | flow <;> simp [flow, BlockKind.ofFlow]
  unfold foldBlock
  rw [ran]
  -- Folding fails only where ending the edited block does.
  rcases decision with _ | _ | target
  · exact iff_of_true ⟨_, _, rfl⟩ trivial
  · have falls := Graph.exists_dropTerminator_iff edited (ends (by simp))
    unfold foldCode at falls
    refine Iff.trans ?_ falls
    dsimp only
    cases (g.modify id _).dropTerminator id with
    | ok h => exact iff_of_true ⟨h, _, rfl⟩ ⟨h, rfl⟩
    | error e => simp
  · have goes : (∃ g', (g.modify id (foldCode final)).redirect id target = .ok g') ↔ _ :=
      Graph.exists_redirect_iff edited (ends (by simp))
    rw [there] at goes
    unfold foldCode at goes
    refine Iff.trans ?_ goes
    dsimp only
    cases (g.modify id _).redirect id target with
    | ok h => exact iff_of_true ⟨h, _, rfl⟩ ⟨h, rfl⟩
    | error e => simp

theorem foldBlock_done (tight : g.Tight) (live : g.block? id = some b)
    (forks : b.kind = .conditional → b.fall ≠ none) (pinned : List Nat) (extra : Bool) :
    ∃ g' counts, foldBlock pinned extra g id b = (g', .ok counts) ∧ g'.entry = g.entry ∧
      g'.regions = g.regions := by
  rcases ran : simulate pinned extra b 0 b.instrs {} with ⟨final, decision⟩
  have feasible : Feasible g b decision := by
    rcases decision with _ | _ | target
    · trivial
    · exact (simulate_leads forks ran).2.1
    · exact tight live target ((simulate_leads forks ran).2.2 target rfl)
  obtain ⟨g', counts, done⟩ := (foldBlock_ok_iff live ran).mpr feasible
  have made := foldBlock_graph g id ran
  rw [done] at made
  refine ⟨g', counts, done, ?_⟩
  rcases made with rfl | ⟨target, redirected⟩ | ⟨-, dropped⟩
  · exact ⟨rfl, rfl⟩
  · obtain ⟨_, _, -, -, -, rfl⟩ := Graph.redirect_ok redirected
    exact ⟨rfl, rfl⟩
  · obtain ⟨_, -, -, -, rfl⟩ := Graph.dropTerminator_ok dropped
    exact ⟨rfl, rfl⟩

theorem instrs_folded (first : Option InstrId) (final : State)
    (decision : Option (Option BlockId)) {front : List Instr} {last : Instr}
    (code : b.instrs = front ++ [last]) :
    (folded first final decision b).instrs = front.mapIdx (foldInstr final) ++
      [match decision with
        | none => foldInstr final front.length last
        | some (some _) => Graph.jumpInstr first (foldInstr final front.length last)
        | some none => (foldInstr final front.length last).erase] := by
  rcases decision with _ | _ | target <;>
    simp [folded, settle, settleCode, code, List.mapIdx_concat]

theorem kind_folded (ran : simulate pinned extra b 0 b.instrs {} = (final, decision))
    (first : Option InstrId) :
    (folded first final decision b).kind =
      decision.elim b.kind fun target => target.elim .fallThrough fun _ => .branch := by
  rcases decision with _ | target
  · exact foldCode_kind ran
  · obtain ⟨front, last, code, -⟩ := simulate_chooses ran
    rw [Block.kind_eq (instrs_folded first final (some target) code)]
    cases target <;> rfl

theorem foldInstr_opcode (final : State) (n : Nat) (i : Instr) :
    foldInstr final n i = i ∨ (foldInstr final n i).opcode ≠ .ret ∧
      (foldInstr final n i).opcode ≠ .call := by
  rcases foldInstr_cases final n i with same | same | ⟨c, same⟩
  · exact .inl same
  · rw [same]
    exact .inr ⟨by simp [Instr.erase], by simp [Instr.erase]⟩
  · rw [same]
    right
    rcases load_opcode c with op | op | op | ⟨n, op⟩ <;> simp [op]

theorem getLast?_of_folded_ret (first : Option InstrId) {i : Instr}
    (end_ : (folded first final decision b).instrs.getLast? = some i) (op : i.opcode = .ret) :
    b.instrs.getLast? = some i := by
  have filled : b.instrs ≠ [] := by
    rintro none
    rcases decision with _ | _ | target <;> simp [folded, settle, settleCode, none] at end_
  obtain ⟨front, last, code⟩ := Block.exists_last filled
  rw [instrs_folded first final decision code, List.getLast?_concat] at end_
  rcases decision with _ | _ | target
  · cases end_
    rcases foldInstr_opcode final front.length last with same | ⟨other, -⟩
    · rw [same, code, List.getLast?_concat]
    · exact absurd op other
  · cases end_
    cases op
  · cases end_
    cases op

theorem fits_folded (filled : b.instrs ≠ []) (straight : b.Straight)
    (forks : b.kind = .conditional → b.fall ≠ none)
    (ran : simulate pinned extra b 0 b.instrs {} = (final, decision)) (first : Option InstrId)
    {d : Nat} (fits : b.Fits returns entered d) :
    (folded first final decision b).Fits returns entered d := by
  obtain ⟨e, level, leads, returned⟩ := fits.level
  have filled' : (folded first final decision b).instrs ≠ [] := by
    obtain ⟨front, last, code⟩ := Block.exists_last filled
    rw [instrs_folded first final decision code]
    simp
  -- The level comes from the runs, so that the folded code need not be looked at.
  have level' : (folded first final decision b).exitLevel? returns d = some e :=
    exitLevel?_of_refines straight filled (folded_straight first final decision straight) filled'
      (folded_refines (unknownValues_lawful returns _) straight ran first) level
  have returned' : ∀ i, (folded first final decision b).instrs.getLast? = some i →
      i.opcode = .ret → e = 0 := fun i end_ op =>
    returned i (getLast?_of_folded_ret first end_ op) op
  have kind' := kind_folded ran first
  rcases decision with _ | _ | target
  · have kind : (folded first final none b).kind = b.kind := kind'
    refine ⟨fits.complete.of_same kind rfl rfl, e, level', fun s among => leads s ?_, returned'⟩
    simp only [Block.successors, kind] at among ⊢
    exact among
  · obtain ⟨choice, falls, -⟩ := simulate_leads forks ran
    have kind : (folded first final (some none) b).kind = .fallThrough := kind'
    refine ⟨Block.complete_of_fallThrough kind falls, e, level', fun s among => ?_, returned'⟩
    simp only [Block.successors, kind] at among
    exact leads s (Block.fall_mem_successors (Option.mem_toList.mp among) (.inr choice))
  · obtain ⟨-, -, goes⟩ := simulate_leads forks ran
    have kind : (folded first final (some (some target)) b).kind = .branch := kind'
    refine ⟨Block.complete_of_branch kind (List.cons_ne_nil target []), e, level',
      fun s among => ?_, returned'⟩
    simp only [Block.successors, kind] at among
    cases List.mem_singleton.mp among
    exact leads target (goes target rfl)

theorem forks_folded (forks : b.kind = .conditional → b.fall ≠ none)
    (ran : simulate pinned extra b 0 b.instrs {} = (final, decision)) (first : Option InstrId)
    (test : (folded first final decision b).kind = .conditional) :
    (folded first final decision b).fall ≠ none := by
  rw [kind_folded ran first] at test
  rcases decision with _ | _ | target
  · exact forks test
  · cases test
  · cases test

theorem agrees_folded (filled : b.instrs ≠ []) (agrees : methods.Agrees b.instrs)
    (first : Option InstrId) (final : State) (decision : Option (Option BlockId)) :
    methods.Agrees (folded first final decision b).instrs := by
  obtain ⟨front, last, code⟩ := Block.exists_last filled
  have kept : ∀ n, ∀ i ∈ b.instrs, ∀ ref callee, (foldInstr final n i).opcode = .call →
      (foldInstr final n i).operand = .method ref → methods.resolve? ref.token = some callee →
      ref.Fits callee := by
    intro n i among ref callee calls names resolved
    rcases foldInstr_opcode final n i with same | ⟨-, other⟩
    · rw [same] at calls names
      exact agrees i among ref callee calls names resolved
    · exact absurd calls other
  intro i inside ref callee calls names resolved
  rw [instrs_folded first final decision code] at inside
  rcases List.mem_append.mp inside with inside | inside
  · obtain ⟨n, below, rfl⟩ := List.mem_mapIdx.mp inside
    have among : front[n] ∈ b.instrs := by
      rw [code]
      exact List.mem_append_left _ (List.getElem_mem below)
    exact kept n _ among ref callee calls names resolved
  · rw [List.mem_singleton.mp inside] at calls names
    rcases decision with _ | _ | target
    · exact kept _ last (by simp [code]) ref callee calls names resolved
    · cases calls
    · cases calls

theorem foldBlock_workable (workable : g.Workable) (live : g.block? id = some b)
    (pinned : List Nat) (extra : Bool) : (foldBlock pinned extra g id b).1.Workable := by
  obtain ⟨laid, tight, forked⟩ := workable
  obtain ⟨g', counts, done, -, -⟩ := foldBlock_done tight live (forked live) pinned extra
  rcases ran : simulate pinned extra b 0 b.instrs {} with ⟨final, decision⟩
  obtain ⟨first, blocks⟩ := foldBlock_exchanges live ran done
  refine ⟨foldBlock_laid laid live, foldBlock_tight tight laid live, ?_⟩
  rw [done]
  exact forked.exchange blocks (forks_folded (forked live) ran first)

theorem foldBlock_levelled (levelled : g.Levelled methods returns entered)
    (live : g.block? id = some b) (pinned : List Nat) (extra : Bool) :
    ∃ g' counts, foldBlock pinned extra g id b = (g', .ok counts) ∧
      g'.Levelled methods returns entered := by
  obtain ⟨laid, tight, forked⟩ := levelled.workable
  obtain ⟨g', counts, done, entry, regions⟩ :=
    foldBlock_done tight live (forked live) pinned extra
  rcases ran : simulate pinned extra b 0 b.instrs {} with ⟨final, decision⟩
  obtain ⟨first, blocks⟩ := foldBlock_exchanges live ran done
  have workable := foldBlock_workable levelled.workable live pinned extra
  rw [done] at workable
  refine ⟨g', counts, done, ?_⟩
  refine levelled.exchange live (folded first final decision b) workable entry regions blocks ?_ ?_
  · exact agrees_folded (laid.filled live) (levelled.agrees live) first final decision
  · exact fun d => fits_folded (laid.filled live) (laid.straight live) (forked live) ran first

theorem pass_levelled (levelled : g.Levelled methods returns entered) (round : Nat)
    (ctx : PassContext) : (pass.run round ctx g).Fine (·.Levelled methods returns entered) := by
  have all : ∀ pinned ids, ∀ {g : Graph}, g.Levelled methods returns entered →
      (runAll ctx pinned ids g).Fine (·.Levelled methods returns entered) := by
    intro pinned ids
    induction ids with
    | nil => exact fun levelled => ⟨⟨false, rfl⟩, levelled⟩
    | cons id rest ih =>
      intro g levelled
      refine PassRun.Fine.andThen ?_ ih
      cases live : g.block? id with
      | none =>
        simp only [runOn, live]
        exact ⟨⟨false, rfl⟩, levelled⟩
      | some b =>
        obtain ⟨g', counts, done, levelled'⟩ :=
          foldBlock_levelled levelled live pinned ctx.config.foldExtra
        simp only [runOn, live, done]
        exact ⟨⟨_, rfl⟩, levelled'⟩
  exact all (pinnedLocals g) g.layout levelled

end Fold

namespace Graph
variable {g g' : Graph} {id : BlockId}

namespace Levelled

theorem without {removed : List BlockId} (levelled : g.Levelled methods returns entered)
    {r : Region} (inside : r ∈ g.regions) (stay : ∀ e ∈ r.entries, e ∉ removed) :
    (∀ h, Region.handlerEntry? (r.without removed) = some h →
        entered h (r.without removed).flags.entryDepth) ∧
      ∀ f, Region.filterEntry? (r.without removed) = some f → entered f 1 := by
  obtain ⟨handler, filter⟩ := entry_without stay
  rw [handler, filter]
  exact ⟨levelled.handlers r inside, levelled.filters r inside⟩

theorem removeDead {n : Nat} (levelled : g.Levelled methods returns entered)
    (done : g.removeDead = .ok (n, g')) : g'.Levelled methods returns entered := by
  rcases removeDead_ok done with ⟨-, -, rfl⟩ | ⟨-, done⟩
  · exact levelled
  · obtain ⟨-, -, made⟩ := remove_ok done
    have blocks : ∀ {other d}, g'.block? other = some d → ∃ b, g.block? other = some b ∧
        d = pruneEdges g.unreachable b ∧ ∀ s ∈ b.successors, s ∉ g.unreachable := by
      intro other d found
      obtain ⟨b, was, stays, rfl⟩ := block?_of_remove done found
      exact ⟨b, was, rfl, fun s => levelled.workable.laid.successor_stays done was stays⟩
    have regions : ∀ r' ∈ g'.regions, ∃ r ∈ g.regions, r' = r.without g.unreachable ∧
        ∀ e ∈ r.entries, e ∉ g.unreachable := by
      intro r' listed
      rw [made] at listed
      obtain ⟨r, was, rfl⟩ := List.mem_map.mp listed
      obtain ⟨was, survives⟩ := List.mem_filter.mp was
      exact ⟨r, was, rfl, stay_of_survives survives⟩
    refine ⟨levelled.workable.remove done, ?_, ?_, ?_, ?_, ?_⟩
    · intro other d found
      obtain ⟨b, was, rfl, kept⟩ := blocks found
      have agrees : methods.Agrees b.instrs := levelled.agrees was
      exact agrees
    · rw [made]
      exact levelled.entry
    · intro other d depth found enters
      obtain ⟨b, was, rfl, kept⟩ := blocks found
      obtain ⟨complete, e, level, leads, returned⟩ := levelled.blocks was enters
      refine ⟨complete.pruneEdges kept, e, level, ?_, returned⟩
      rw [successors_pruneEdges kept]
      exact leads
    · intro r' listed
      obtain ⟨r, was, rfl, stay⟩ := regions r' listed
      exact (levelled.without was stay).1
    · intro r' listed
      obtain ⟨r, was, rfl, stay⟩ := regions r' listed
      exact (levelled.without was stay).2

end Levelled

theorem level?_of_isBr {i : Instr} (jumps : i.isBr = true) (d : Nat) :
    i.level? returns d = some d := by
  unfold Instr.isBr at jumps
  split at jumps
  · rename_i form op
    simp [Instr.level?, Instr.stackEffect?, op, Opcode.fixedStack]
  · cases jumps

theorem levelAfter?_openCode {b : Block} (filled : b.instrs ≠ []) (chained : chains b id = true)
    {d e : Nat} (level : b.exitLevel? returns d = some e) :
    levelAfter? returns d (openCode b) = some e := by
  have stays : b.kind ≠ .leave := by
    rcases (chains_cases chained).1 with kind | kind <;> rw [kind] <;> simp
  simp only [Block.exitLevel?, if_neg stays, Option.map_id_fun', id_eq] at level
  rcases openCode_cases filled with ⟨whole, -⟩ | ⟨jump, jumps, whole⟩
  · rw [← whole]
    exact level
  · rw [whole, levelAfter?_append] at level
    obtain ⟨after, known, level⟩ := Option.bind_eq_some_iff.mp level
    rw [levelAfter?_singleton, level?_of_isBr jumps] at level
    cases level
    exact known

theorem openCode_subset (b : Block) : openCode b ⊆ b.instrs := by
  unfold openCode
  split
  · exact List.dropLast_subset b.instrs
  · exact List.Subset.refl b.instrs

theorem fits_join {first second : Block} {d : Nat} (filled : first.instrs ≠ [])
    (filled' : second.instrs ≠ []) (chained : chains first id = true)
    (fits : first.Fits returns entered d)
    (next : ∀ {e}, entered id e → second.Fits returns entered e) :
    (join first second).Fits returns entered d := by
  obtain ⟨-, e, level, leads, -⟩ := fits
  have through := levelAfter?_openCode filled chained level
  have goes : id ∈ first.successors := by simp [(chains_cases chained).2]
  obtain ⟨complete, e', level', leads', returned⟩ := next (leads id goes)
  have kind := kind_join first filled'
  refine ⟨complete.of_same kind rfl rfl, e', ?_, ?_, ?_⟩
  · rw [Block.exitLevel?, kind, join, levelAfter?_append, through, Option.bind_some]
    exact level'
  · have successors : (join first second).successors = second.successors := by
      simp only [Block.successors, kind]
      rfl
    rw [successors]
    exact leads'
  · intro i final op
    refine returned i ?_ op
    rw [join, List.getLast?_append_of_ne_nil _ filled'] at final
    exact final

namespace Levelled

theorem joined {pred : BlockId} {first second : Block}
    (levelled : g.Levelled methods returns entered) (j : Joinable g pred id first second) :
    ((g.drop id).modify pred fun b => join b second).Levelled methods returns entered := by
  have laid := levelled.workable.laid
  refine ⟨levelled.workable.joined j, ?_, levelled.entry, ?_, ?_, ?_⟩
  · intro other d found
    rcases block?_of_joined j found with ⟨-, rfl⟩ | ⟨-, -, found⟩
    · intro i inside
      rcases List.mem_append.mp inside with inside | inside
      · exact levelled.agrees j.before i (openCode_subset first inside)
      · exact levelled.agrees j.behind i inside
    · exact levelled.agrees found
  · intro other d depth found enters
    rcases block?_of_joined j found with ⟨rfl, rfl⟩ | ⟨-, -, found⟩
    · exact fits_join (laid.filled j.before) (laid.filled j.behind) j.chained
        (levelled.blocks j.before enters) (levelled.blocks j.behind)
    · exact levelled.blocks found enters
  · intro r' listed
    obtain ⟨r, was, rfl⟩ := List.mem_map.mp listed
    exact (levelled.without was (j.stays was)).1
  · intro r' listed
    obtain ⟨r, was, rfl⟩ := List.mem_map.mp listed
    exact (levelled.without was (j.stays was)).2

theorem mergeUpTo (levelled : g.Levelled methods returns entered) (n : Nat) :
    (g.mergeUpTo n).2.Levelled methods returns entered :=
  mergeUpTo_keeps (fun levelled j => levelled.joined j) n levelled

end Levelled
end Graph

namespace Schedule
variable {g : Graph}

theorem normalize_levelled (ctx : PassContext) (levelled : g.Levelled methods returns entered) :
    (normalize ctx g).Fine (·.Levelled methods returns entered) := by
  obtain ⟨n, live, done⟩ := levelled.workable.laid.exists_removeDead
  have pruned := levelled.removeDead done
  simp only [normalize, done]
  exact ⟨⟨_, rfl⟩, pruned.mergeUpTo live.layout.length⟩

theorem runPasses_fine {P : Graph → Prop} {ctx : PassContext} {passes : List Pass}
    (each : ∀ p ∈ passes, ∀ round {g}, P g → (p.run round ctx g).Fine P) (round : Nat)
    (holds : P g) : (runPasses round ctx passes g).Fine P := by
  induction passes generalizing g with
  | nil => exact ⟨⟨false, rfl⟩, holds⟩
  | cons p rest ih =>
    refine PassRun.Fine.andThen (each p List.mem_cons_self round holds) fun holds => ?_
    exact ih (fun q inside => each q (List.mem_cons_of_mem p inside)) holds

theorem runRounds_fine {P : Graph → Prop} {ctx : PassContext} {passes : List Pass}
    (each : ∀ p ∈ passes, ∀ round {g}, P g → (p.run round ctx g).Fine P)
    (cleans : ∀ {g}, P g → (normalize ctx g).Fine P) (rounds round : Nat) (holds : P g) :
    (∃ n, (runRounds passes ctx rounds round g).result = .ok n) ∧
      P (runRounds passes ctx rounds round g).graph := by
  induction rounds generalizing g round with
  | zero => exact ⟨⟨round, rfl⟩, holds⟩
  | succ rounds ih =>
    have once : (runRound passes round ctx g).Fine P :=
      (runPasses_fine each round holds).andThen cleans
    obtain ⟨⟨changed, went⟩, left⟩ := once
    rw [runRounds]
    cases changed with
    | false =>
      simp only [went]
      exact ⟨⟨_, rfl⟩, left⟩
    | true =>
      simp only [went]
      exact ih (round + 1) left

theorem run_levelled (c : Config) (ctx : PassContext) (coherent : ctx.methods.Coherent)
    (levelled : g.Levelled ctx.methods returns entered) :
    (∃ n, ((ofConfig c).run ctx g).result = .ok n) ∧
      ((ofConfig c).run ctx g).graph.Levelled ctx.methods returns entered := by
  refine runRounds_fine ?_ (fun holds => normalize_levelled ctx holds) _ _ levelled
  intro p inside round g holds
  rcases mem_passes_ofConfig inside with rfl | rfl
  · exact Inline.pass_levelled coherent holds round
  · exact Fold.pass_levelled holds round ctx

end Schedule
end Unravel
