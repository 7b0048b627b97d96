import Unravel.Proofs.Graph.Weight
import Unravel.Proofs.Stack.Passes

namespace Unravel

/-- Instructions that folding may replace: those that read a variable, compute or choose. -/
def Opcode.folds : Opcode → Bool
  | .ldloc _ | .unary _ | .binary _ | .branch _ _ | .switch => true
  | _ => false

/-- An instruction that passes have no more use for: it is neither folded nor a call. -/
def Instr.Inert (i : Instr) : Prop := i.opcode.folds = false ∧ i.opcode ≠ .call

def Instr.foldable (i : Instr) : Nat := i.opcode.folds.toNat

theorem Instr.Inert.foldable {i : Instr} (inert : i.Inert) : i.foldable = 0 := by
  rw [Instr.foldable, inert.1]
  rfl

namespace Fold
variable {pinned : List Nat} {extra : Bool} {t : Nat} {s s' final : State} {i : Instr}
  {g g' : Graph} {id : BlockId} {b : Block} {decision : Option (Option BlockId)}

theorem inert_erase (i : Instr) : i.erase.Inert := ⟨rfl, by simp [Instr.erase]⟩

theorem inert_jump (first : Option InstrId) (i : Instr) : (Graph.jumpInstr first i).Inert :=
  ⟨rfl, by simp [Graph.jumpInstr]⟩

theorem inert_load (c : Constant) (i : Instr) :
    ({ i with opcode := c.load.1, operand := c.load.2 } : Instr).Inert := by
  rcases load_opcode c with op | op | op | ⟨n, op⟩ <;> simp [Instr.Inert, op, Opcode.folds]

theorem foldInstr_inert (final : State) (n : Nat) (i : Instr) :
    foldInstr final n i = i ∨ (foldInstr final n i).Inert := by
  rcases foldInstr_cases final n i with same | same | ⟨c, same⟩
  · exact .inl same
  · rw [same]
    exact .inr (inert_erase i)
  · rw [same]
    exact .inr (inert_load c i)

/-- Indices of loads are those of instructions that fold. An erased instruction is made up for by a
    load that stays. -/
structure State.Marked (code : List Instr) (s : State) : Prop where
  folds : ∀ l ∈ s.loads, ∃ i, code[l.1]? = some i ∧ i.opcode.folds = true
  stays : s.loads = [] ∧ s.erased = [] ∨ ∃ l ∈ s.loads, l.1 ∉ s.erased

theorem marked_start (code : List Instr) : State.Marked code {} := ⟨by simp, .inl ⟨rfl, rfl⟩⟩

/-- An instruction leaves the marks alone, or it folds and is marked as a load itself. -/
def Marks (t : Nat) (i : Instr) (s s' : State) : Prop :=
  s'.loads = s.loads ∧ s'.erased = s.erased ∨
    i.opcode.folds = true ∧ (∃ c, s'.loads = s.loads ++ [(t, c)]) ∧ t ∉ s'.erased

theorem marks_fold (folds : i.opcode.folds = true) (sound : s.Sound pinned t) (value : Constant)
    {sources : List Source} (below : SourcesBelow t sources) :
    Marks t i s (s.fold extra t value sources) := by
  unfold State.fold
  split
  · exact .inr ⟨folds, ⟨value, rfl⟩, not_mem_dropSources below sound.erased⟩
  · exact .inl ⟨rfl, rfl⟩

theorem Stepped.marks (stepped : Stepped pinned extra t i s s') (sound : s.Sound pinned t) :
    Marks t i s s' := by
  cases stepped with
  | constant | nop | pop | skipped => exact .inl ⟨rfl, rfl⟩
  | loaded n value access =>
    have folds : i.opcode.folds = true := by
      unfold Instr.loadedLocal? at access
      split at access
      · rename_i op
        rw [op]
        rfl
      · cases access
    rcases loadLocal_cases extra t s n with ⟨c, -, same⟩ | ⟨-, same⟩ <;> rw [same]
    · cases extra with
      | true =>
        refine .inr ⟨folds, ⟨c, rfl⟩, fun gone => ?_⟩
        exact absurd (sound.erased t gone) (Nat.lt_irrefl t)
      | false => exact .inl ⟨rfl, rfl⟩
    · exact .inl ⟨rfl, rfl⟩
  | stored n value load access =>
    obtain ⟨-, erased, loads⟩ := storeLocal_fields pinned s n
    exact .inl ⟨loads, erased⟩
  | dup op =>
    obtain ⟨erased, loads⟩ := duplicate_fields t s
    exact .inl ⟨loads, erased⟩
  | unary f op =>
    have folds : i.opcode.folds = true := by rw [op]; rfl
    rcases foldUnary_cases extra t f s with ⟨a, rest, stack, same⟩ | ⟨-, same⟩ <;> rw [same]
    · have under : State.Sound pinned t { s with stack := rest } := sound.rest (by simp [stack])
      exact marks_fold folds under _ (sound.sources a (by simp [stack]))
    · exact .inl ⟨rfl, rfl⟩
  | binary f op =>
    have folds : i.opcode.folds = true := by rw [op]; rfl
    rcases foldBinary_cases extra t f s with ⟨a, c, v, rest, stack, -, same⟩ | ⟨-, same⟩ <;>
      rw [same]
    · have under : State.Sound pinned t { s with stack := rest } := sound.rest (by simp [stack])
      have below : SourcesBelow t (a.sources ++ c.sources) := (sourcesBelow_append _ _).mpr
        ⟨sound.sources a (by simp [stack]), sound.sources c (by simp [stack])⟩
      exact marks_fold folds under _ below
    · exact .inl ⟨rfl, rfl⟩

theorem State.Marked.step {code : List Instr} (marked : s.Marked code) (here : code[t]? = some i)
    (marks : Marks t i s s') : s'.Marked code := by
  rcases marks with ⟨loads, erased⟩ | ⟨folds, ⟨c, loads⟩, stays⟩
  · exact ⟨by rw [loads]; exact marked.folds, by rw [loads, erased]; exact marked.stays⟩
  · refine ⟨?_, .inr ⟨(t, c), by simp [loads], stays⟩⟩
    rw [loads]
    intro l inside
    rcases List.mem_append.mp inside with before | last
    · exact marked.folds l before
    · rw [List.mem_singleton.mp last]
      exact ⟨i, here, folds⟩

theorem simulate_marked {whole code : List Instr} (rest : whole.drop t = code)
    (sound : s.Sound pinned t) (marked : s.Marked whole)
    (ran : simulate pinned extra b t code s = (final, none)) : final.Marked whole := by
  have simulated := simulate_simulated ran
  clear ran
  generalize open_ : none = decision at simulated
  induction simulated with
  | ended | undecided | stuck => exact marked
  | decided => cases open_
  | @step t i code s s' final decision goes stepped later ih =>
    have here : whole[t]? = some i := by
      rw [← List.head?_drop, rest]
      rfl
    refine ih ?_ (stepped.sound sound) (marked.step here (stepped.marks sound)) open_
    rw [← List.tail_drop, rest]
    rfl

theorem decide?_folds {d : Decision} (decided : decide? b i s = some d) :
    i.opcode.folds = true := by
  unfold decide? at decided
  split at decided
  · rename_i op
    rw [op]
    rfl
  · rename_i op
    rw [op]
    rfl
  · cases decided

section Weight
variable {w : Instr → Nat} (light : ∀ i : Instr, i.Inert → w i = 0)
include light

theorem foldInstr_light (final : State) (n : Nat) (i : Instr) : w (foldInstr final n i) ≤ w i := by
  rcases foldInstr_inert final n i with same | inert
  · rw [same]
  · rw [light _ inert]
    exact Nat.zero_le _

theorem weigh_folded_decided (first : Option InstrId) (final : State) (target : Option BlockId)
    {front : List Instr} {last : Instr} (code : b.instrs = front ++ [last]) :
    weigh w (folded first final (some target) b).instrs ≤ weigh w front := by
  have lighter := weigh_mapIdx_le (foldInstr_light light final) front
  rw [instrs_folded first final (some target) code, weigh_append]
  rcases target with _ | target
  · simpa [light _ (inert_erase _)] using lighter
  · simpa [light _ (inert_jump _ _)] using lighter

theorem weigh_folded (filled : b.instrs ≠ []) (first : Option InstrId) (final : State)
    (decision : Option (Option BlockId)) :
    weigh w (folded first final decision b).instrs ≤ weigh w b.instrs := by
  cases decision with
  | none => exact weigh_mapIdx_le (foldInstr_light light final) b.instrs
  | some target =>
    obtain ⟨front, last, code⟩ := Block.exists_last filled
    have less := weigh_folded_decided light first final target code
    rw [code, weigh_append]
    omega

end Weight

theorem foldBlock_counts {counts : Nat × Bool}
    (ran : simulate pinned extra b 0 b.instrs {} = (final, decision))
    (done : foldBlock pinned extra g id b = (g', .ok counts)) :
    counts = ((final.loads.filter fun l => !final.erased.contains l.1).length, decision.isSome) ∧
      g'.layout = g.layout := by
  unfold foldBlock at done
  rw [ran] at done
  rcases decision with _ | _ | target
  · cases done
    exact ⟨rfl, rfl⟩
  · dsimp only at done
    split at done
    · rename_i ended dropped
      cases done
      obtain ⟨-, -, -, -, rfl⟩ := Graph.dropTerminator_ok dropped
      exact ⟨rfl, rfl⟩
    · cases done
  · dsimp only at done
    split at done
    · rename_i ended redirected
      cases done
      obtain ⟨-, -, -, -, -, rfl⟩ := Graph.redirect_ok redirected
      exact ⟨rfl, rfl⟩
    · cases done

theorem weight_foldBlock {w : Instr → Nat} (light : ∀ i : Instr, i.Inert → w i = 0) (l : g.Laid)
    (live : g.block? id = some b) {counts : Nat × Bool}
    (done : foldBlock pinned extra g id b = (g', .ok counts)) : g'.weight w ≤ g.weight w := by
  rcases ran : simulate pinned extra b 0 b.instrs {} with ⟨final, decision⟩
  obtain ⟨first, blocks⟩ := foldBlock_exchanges live ran done
  have moved := Graph.weight_exchange (w := w) l live (foldBlock_counts ran done).2 blocks
  have less := weigh_folded light (l.filled live) first final decision
  omega

theorem foldBlock_idle (live : g.block? id = some b)
    (done : foldBlock pinned extra g id b = (g', .ok (0, false))) : g' = g := by
  rcases ran : simulate pinned extra b 0 b.instrs {} with ⟨final, decision⟩
  obtain ⟨counts, -⟩ := foldBlock_counts ran done
  obtain ⟨empty, undecided⟩ := Prod.mk.inj counts
  obtain rfl : decision = none := by simpa using undecided.symm
  have marked : final.Marked b.instrs :=
    simulate_marked rfl (sound_start pinned) (marked_start b.instrs) ran
  rcases marked.stays with ⟨loads, erased⟩ | ⟨l, listed, stays⟩
  · have kept : ∀ n i, foldInstr final n i = i := fun n i =>
      foldInstr_kept (by simp [erased]) (by simp [loads])
    unfold foldBlock at done
    rw [ran] at done
    rw [← (Prod.mk.inj done).1]
    refine Graph.modify_same live ?_
    have code : b.instrs.mapIdx (foldInstr final) = b.instrs := by
      refine List.ext_getElem? fun n => ?_
      rw [List.getElem?_mapIdx]
      cases b.instrs[n]? <;> simp [kept]
    rw [code]
  · have gone := List.filter_eq_nil_iff.mp (List.length_eq_zero_iff.mp empty.symm) l listed
    simp [stays] at gone

theorem foldable_foldBlock (l : g.Laid) (live : g.block? id = some b) {loaded : Nat}
    {decided : Bool} (done : foldBlock pinned extra g id b = (g', .ok (loaded, decided)))
    (counted : (loaded != 0 || decided) = true) :
    g'.weight Instr.foldable < g.weight Instr.foldable := by
  rcases ran : simulate pinned extra b 0 b.instrs {} with ⟨final, decision⟩
  obtain ⟨first, blocks⟩ := foldBlock_exchanges live ran done
  obtain ⟨counts, layout⟩ := foldBlock_counts ran done
  have moved := Graph.weight_exchange (w := Instr.foldable) l live layout blocks
  suffices less : weigh Instr.foldable (folded first final decision b).instrs <
      weigh Instr.foldable b.instrs by omega
  cases decision with
  | some target =>
    obtain ⟨front, last, s, d, code, decided, -⟩ := simulate_decides ran
    have rest := weigh_folded_decided (fun _ => Instr.Inert.foldable) first final target code
    have one : last.foldable = 1 := by rw [Instr.foldable, decide?_folds decided]; rfl
    rw [code, weigh_append, weigh_cons, one]
    omega
  | none =>
    have marked : final.Marked b.instrs :=
      simulate_marked rfl (sound_start pinned) (marked_start b.instrs) ran
    obtain ⟨rfl, rfl⟩ := Prod.mk.inj counts
    have some_ : final.loads.filter (fun l => !final.erased.contains l.1) ≠ [] := by
      simpa using counted
    obtain ⟨load, listed⟩ := List.exists_mem_of_ne_nil _ some_
    obtain ⟨listed, stays⟩ := List.mem_filter.mp listed
    obtain ⟨i, here, folds⟩ := marked.folds load listed
    refine weigh_mapIdx_lt (foldInstr_light (fun _ => Instr.Inert.foldable) final) here ?_
    obtain ⟨c, found⟩ : ∃ c, final.loads.lookup load.1 = some c := by
      rw [← Option.ne_none_iff_exists', Ne, List.lookup_eq_none_iff]
      intro apart
      simpa using apart load listed
    rw [foldInstr_load (by simpa using stays) found, (inert_load c i).foldable, Instr.foldable,
      folds]
    exact Nat.zero_lt_one

end Fold
end Unravel
