import Unravel.Proofs.Fold.Block
import Unravel.Proofs.Graph.Invariant

namespace Unravel.Fold
variable {pinned : List Nat} {extra : Bool} {t : Nat} {s final : State} {g : Graph} {b : Block}
variable {decision : Option (Option BlockId)}

theorem decided_below {i : Instr} {d : Decision} (sound : s.Sound pinned t)
    (decided : decide? b i s = some d) : SourcesBelow t d.sources := by
  obtain ⟨ks, rest, way, decided⟩ := decide?_decided Unit decided
  rw [sourcesBelow_iff]
  intro x inside
  obtain ⟨k, known, among⟩ := List.mem_flatMap.mp (decided.sources.mem_iff.mp inside)
  have onStack : some k ∈ s.stack := by
    rw [decided.stack]
    exact List.mem_append_left _ (List.mem_map_of_mem known)
  exact (sourcesBelow_iff _).mp (sound.sources k onStack) x among

theorem foldInstr_beyond (sound : s.Sound pinned t) (n : Nat) (i : Instr) :
    foldInstr s (t + n) i = i := by
  induction n generalizing t with
  | zero =>
    have stays : t ∉ s.erased := fun gone => Nat.lt_irrefl t (sound.erased t gone)
    exact foldInstr_kept stays sound.lookup_none
  | succ n ih =>
    have later := ih sound.later
    rwa [Nat.add_assoc, Nat.add_comm 1 n] at later

theorem simulate_last {front : List Instr} {last : Instr} (ends : last.isTerminal = true)
    (sound : s.Sound pinned t)
    (ran : simulate pinned extra b t (front ++ [last]) s = (final, decision)) :
    foldInstr final (t + front.length) last = last := by
  have simulated := simulate_simulated ran
  clear ran
  generalize whole : front ++ [last] = code at simulated
  induction simulated generalizing front with
  | ended => simp at whole
  | @decided t i s d _ found =>
    obtain ⟨rfl, -⟩ := (List.append_eq_singleton_iff.mp whole).resolve_right (by simp)
    have stays := not_mem_dropSources (decided_below sound found) sound.erased
    exact foldInstr_kept stays sound.lookup_none
  | undecided | stuck => exact foldInstr_beyond sound _ last
  | @step t i rest s s' final decision goes stepped later ih =>
    cases front with
    | nil =>
      cases whole
      simp [ends] at goes
    | cons j front =>
      have same := ih (stepped.sound sound) (List.cons.inj whole).2
      rwa [Nat.add_assoc, Nat.add_comm 1 front.length] at same

theorem simulate_decides {code : List Instr} {target : Option BlockId}
    (ran : simulate pinned extra b t code s = (final, some target)) :
    ∃ front last s' d, code = front ++ [last] ∧ decide? b last s' = some d ∧ d.target = target := by
  have simulated := simulate_simulated ran
  clear ran
  generalize chosen : some target = decision at simulated
  induction simulated with
  | ended | undecided | stuck => cases chosen
  | @decided t i s d ends found =>
    cases chosen
    exact ⟨[], i, s, d, rfl, found, rfl⟩
  | @step t i rest s s' final decision goes stepped later ih =>
    obtain ⟨front, last, s', d, rfl, decided⟩ := ih chosen
    exact ⟨i :: front, last, s', d, rfl, decided⟩

theorem simulate_chooses {code : List Instr} {target : Option BlockId}
    (ran : simulate pinned extra b t code s = (final, some target)) :
    ∃ front last, code = front ++ [last] ∧ (last.flow = .conditional ∨ last.flow = .switch) := by
  obtain ⟨front, last, s', d, code, decided, -⟩ := simulate_decides ran
  obtain ⟨ks, rest, way, decided⟩ := decide?_decided Unit decided
  refine ⟨front, last, code, ?_⟩
  rcases decided.chooses with ⟨c, form, op⟩ | op
  · exact .inl (by rw [Instr.flow, op]; rfl)
  · exact .inr (by rw [Instr.flow, op]; rfl)

def foldCode (final : State) (b : Block) : Block :=
  { b with instrs := b.instrs.mapIdx (foldInstr final) }

theorem ids_foldCode (final : State) (b : Block) : (foldCode final b).ids = b.ids := by
  have keeps : ∀ n i, (foldInstr final n i).id = i.id := by
    intro n i
    unfold foldInstr
    split
    · rfl
    · split <;> rfl
  apply List.ext_getElem?
  intro n
  simp only [Block.ids, foldCode, List.getElem?_map, List.getElem?_mapIdx, Option.map_map,
    Function.comp_def, keeps]

theorem instrs_foldCode (final : State) {front : List Instr} {last : Instr}
    (code : b.instrs = front ++ [last]) :
    (foldCode final b).instrs =
      front.mapIdx (foldInstr final) ++ [foldInstr final front.length last] := by
  rw [foldCode, code, List.mapIdx_concat]

theorem foldCode_kind (ran : simulate pinned extra b 0 b.instrs {} = (final, decision)) :
    (foldCode final b).kind = b.kind := by
  by_cases empty : b.instrs = []
  · simp [Block.kind, foldCode, empty]
  · obtain ⟨front, last, code⟩ := Block.exists_last empty
    rw [Block.kind_eq (instrs_foldCode final code), Block.kind_eq code]
    cases ends : last.isTerminal with
    | true =>
      rw [code] at ran
      have same := simulate_last ends (sound_start pinned) ran
      rw [Nat.zero_add] at same
      rw [same]
    | false =>
      rw [Instr.kind_of_plain ends, Instr.kind_of_plain (foldInstr_isTerminal final ends)]

theorem foldCode_shape (filled : b.instrs ≠ []) (straight : b.Straight)
    (ran : simulate pinned extra b 0 b.instrs {} = (final, decision)) :
    (foldCode final b).Straight ∧ (foldCode final b).kind = b.kind := by
  refine ⟨?_, foldCode_kind ran⟩
  obtain ⟨front, last, code⟩ := Block.exists_last filled
  have plain := (Block.straight_iff code).mp straight
  refine (Block.straight_iff (instrs_foldCode final code)).mpr ?_
  intro i inside
  obtain ⟨n, bound, rfl⟩ := List.mem_mapIdx.mp inside
  exact foldInstr_isTerminal final (plain _ (List.getElem_mem bound))

theorem foldCode_laid (l : g.Laid) {id : BlockId} (live : g.block? id = some b)
    (ran : simulate pinned extra b 0 b.instrs {} = (final, decision)) :
    (g.modify id (foldCode final)).Laid :=
  l.edit live rfl (ids_foldCode final b) (foldCode_shape (l.filled live) (l.straight live) ran).1

theorem foldCode_tight (tight : g.Tight) (l : g.Laid) {id : BlockId} (live : g.block? id = some b)
    (ran : simulate pinned extra b 0 b.instrs {} = (final, decision)) :
    (g.modify id (foldCode final)).Tight := by
  refine (tight.rewritten live ?_ : (g.rewritten id (foldCode final) g.nextInstr).Tight)
  have kind := (foldCode_shape (l.filled live) (l.straight live) ran).2
  have successors : (foldCode final b).successors = b.successors := by
    simp only [Block.successors, kind]
    rfl
  rw [successors]
  exact tight live

theorem foldCode_consistent (c : g.Consistent) {id : BlockId} (live : g.block? id = some b)
    (ran : simulate pinned extra b 0 b.instrs {} = (final, decision)) :
    (g.modify id (foldCode final)).Consistent :=
  (foldCode_laid c.laid live ran).consistent (c.distinct.edit live (ids_foldCode final b))
    (foldCode_tight c.tight c.laid live ran)

/-- The graph that folding a block leaves: the folded code, with the decision carried out if that
    went well. -/
theorem foldBlock_graph (g : Graph) (id : BlockId)
    (ran : simulate pinned extra b 0 b.instrs {} = (final, decision)) :
    (foldBlock pinned extra g id b).1 = g.modify id (foldCode final) ∨
      (∃ target, (g.modify id (foldCode final)).redirect id target =
        .ok (foldBlock pinned extra g id b).1) ∨
      (b.kind = .conditional ∨ b.kind = .switch) ∧
        (g.modify id (foldCode final)).dropTerminator id =
          .ok (foldBlock pinned extra g id b).1 := by
  unfold foldBlock
  rw [ran]
  rcases decision with _ | _ | target
  · exact .inl rfl
  · obtain ⟨front, last, code, chooses⟩ := simulate_chooses ran
    have kind : b.kind = .conditional ∨ b.kind = .switch := by
      rw [Block.kind_eq code]
      rcases chooses with flow | flow
      · exact .inl (by rw [flow]; rfl)
      · exact .inr (by rw [flow]; rfl)
    dsimp only
    split
    · rename_i g' done
      exact .inr (.inr ⟨kind, done⟩)
    · exact .inl rfl
  · dsimp only
    split
    · rename_i g' done
      exact .inr (.inl ⟨target, done⟩)
    · exact .inl rfl

theorem foldBlock_frame (g : Graph) (id : BlockId) :
    g.SameFrame (foldBlock pinned extra g id b).1 := by
  rcases ran : simulate pinned extra b 0 b.instrs {} with ⟨final, decision⟩
  rcases foldBlock_graph g id ran with same | ⟨target, done⟩ | ⟨-, done⟩
  · rw [same]
    exact ⟨rfl, rfl⟩
  · obtain ⟨_, _, -, -, -, same⟩ := Graph.redirect_ok done
    rw [same]
    exact ⟨rfl, rfl⟩
  · obtain ⟨_, -, -, -, same⟩ := Graph.dropTerminator_ok done
    rw [same]
    exact ⟨rfl, rfl⟩

theorem foldBlock_laid {id : BlockId} (l : g.Laid) (live : g.block? id = some b) :
    (foldBlock pinned extra g id b).1.Laid := by
  rcases ran : simulate pinned extra b 0 b.instrs {} with ⟨final, decision⟩
  have folded := foldCode_laid l live ran
  rcases foldBlock_graph g id ran with same | ⟨target, done⟩ | ⟨-, done⟩
  · rw [same]
    exact folded
  · exact folded.redirect done
  · exact folded.dropTerminator done

theorem foldBlock_distinct {id : BlockId} (distinct : g.Distinct) (live : g.block? id = some b) :
    (foldBlock pinned extra g id b).1.Distinct := by
  rcases ran : simulate pinned extra b 0 b.instrs {} with ⟨final, decision⟩
  have folded : (g.modify id (foldCode final)).Distinct :=
    distinct.edit live (ids_foldCode final b)
  rcases foldBlock_graph g id ran with same | ⟨target, done⟩ | ⟨-, done⟩
  · rw [same]
    exact folded
  · exact folded.redirect done
  · exact folded.dropTerminator done

theorem foldBlock_tight {id : BlockId} (tight : g.Tight) (l : g.Laid)
    (live : g.block? id = some b) : (foldBlock pinned extra g id b).1.Tight := by
  rcases ran : simulate pinned extra b 0 b.instrs {} with ⟨final, decision⟩
  have laid := foldCode_laid l live ran
  have folded := foldCode_tight tight l live ran
  rcases foldBlock_graph g id ran with same | ⟨target, done⟩ | ⟨chooses, done⟩
  · rw [same]
    exact folded
  · exact folded.redirect laid done
  · refine folded.dropTerminator laid done ?_
    intro d there
    rw [Graph.block?_modify, if_pos rfl, live] at there
    cases there
    rw [(foldCode_shape (l.filled live) (l.straight live) ran).2]
    exact chooses

theorem foldBlock_consistent {id : BlockId} (c : g.Consistent) (live : g.block? id = some b) :
    (foldBlock pinned extra g id b).1.Consistent :=
  (foldBlock_laid c.laid live).consistent (foldBlock_distinct c.distinct live)
    (foldBlock_tight c.tight c.laid live)

theorem runAll_keeps {P : Graph → Prop} {ctx : PassContext}
    (step : ∀ {g id b}, P g → g.block? id = some b →
      P (foldBlock pinned ctx.config.foldExtra g id b).1)
    (ids : List BlockId) (holds : P g) : P (runAll ctx pinned ids g).graph := by
  induction ids generalizing g with
  | nil => exact holds
  | cons id rest ih =>
    refine PassRun.andThen_keeps ?_ ih
    cases live : g.block? id with
    | none =>
      simp only [runOn, live]
      exact holds
    | some b =>
      have folded := step holds live
      rcases done : foldBlock pinned ctx.config.foldExtra g id b with ⟨g', outcome⟩
      rw [done] at folded
      cases outcome <;> simpa only [runOn, live, done] using folded

theorem pass_frame (g : Graph) (round : Nat) (ctx : PassContext) :
    g.SameFrame (pass.run round ctx g).graph :=
  runAll_keeps (P := g.SameFrame) (fun frame _ => frame.trans (foldBlock_frame _ _)) g.layout
    ⟨rfl, rfl⟩

theorem pass_laid (l : g.Laid) (round : Nat) (ctx : PassContext) :
    (pass.run round ctx g).graph.Laid :=
  runAll_keeps foldBlock_laid g.layout l

theorem pass_consistent (c : g.Consistent) (round : Nat) (ctx : PassContext) :
    (pass.run round ctx g).graph.Consistent :=
  runAll_keeps foldBlock_consistent g.layout c

end Unravel.Fold
