import Unravel.Proofs.Body.Depths
import Unravel.Proofs.Flow.Recutting
import Unravel.Proofs.Stack.Passes

namespace Unravel
variable {methods : Resolver} {returns : Bool} {entered : BlockId → Nat → Prop}

theorem levelAfter?_take {code : List Instr} {d e j : Nat} {i : Instr} (here : code[j]? = some i)
    (known : levelAfter? returns d (code.take j) = some e) :
    levelAfter? returns d (code.take (j + 1)) = i.level? returns e := by
  rw [List.take_add_one, here, Option.toList_some, levelAfter?_append, known, Option.bind_some,
    levelAfter?_singleton]

theorem Flow.mem_exits {α : Type} {flow : Flow} {targets : List α} {onward : Option α}
    {kind : EdgeKind} {x : α} (exits : (kind, x) ∈ flow.exits targets onward) :
    x ∈ targets ∨ flow.fallsThrough = true ∧ onward = some x := by
  have first : ∀ {k : EdgeKind}, (kind, x) ∈ targets.head?.toList.map (fun t => (k, t)) →
      x ∈ targets := by
    intro k inside
    obtain ⟨t, head, same⟩ := List.mem_map.mp inside
    cases same
    exact List.mem_of_mem_head? (Option.mem_toList.mp head)
  have onto : ∀ {k : EdgeKind}, (kind, x) ∈ onward.toList.map (fun t => (k, t)) →
      onward = some x := by
    intro k inside
    obtain ⟨t, found, same⟩ := List.mem_map.mp inside
    cases same
    exact Option.mem_toList.mp found
  cases flow with
  | sequential | call => exact .inr ⟨rfl, onto exits⟩
  | unconditional | leave => exact .inl (first exits)
  | conditional =>
    rcases List.mem_append.mp exits with exits | exits
    · exact .inl (first exits)
    · exact .inr ⟨rfl, onto exits⟩
  | switch =>
    rcases List.mem_append.mp exits with exits | exits
    · obtain ⟨⟨t, n⟩, among, same⟩ := List.mem_map.mp exits
      cases same
      exact .inl (List.fst_mem_of_mem_zipIdx among)
    · exact .inr ⟨rfl, onto exits⟩
  | returns | throw | endFinally | endFilter => cases exits

theorem Block.exists_exit {b : Block} {s : BlockId} (among : s ∈ b.successors) :
    ∃ kind, (kind, s) ∈ b.exits := by
  rw [← Block.map_target_edges] at among
  obtain ⟨edge, listed, rfl⟩ := List.mem_map.mp among
  exact ⟨edge.kind, List.mem_map_of_mem listed⟩

namespace Body
variable {body : Body} {starts : List Nat} {g : Graph} {k start d : Nat}

theorem Leads.of_exit {n m : Nat} {i : Instr} {effect : StackEffect} {kind : EdgeKind}
    (here : body.instrs[n]? = some i) (found : i.stackEffect? returns = some effect)
    (enough : effect.pops ≤ d) (exits : (kind, m) ∈ body.exits n i) :
    Leads returns body ⟨n, d⟩
      ⟨m, if i.flow = .leave then 0 else d - effect.pops + effect.pushes⟩ := by
  rcases Flow.mem_exits exits with among | ⟨falls, onward⟩
  · obtain ⟨t, goes, index⟩ := List.mem_filterMap.mp among
    exact .jump here found enough goes index
  · split at onward
    · rename_i more
      cases onward
      rw [if_neg fun leaves => by rw [leaves] at falls; cases falls]
      exact .next here found enough falls more
    · cases onward

def EnteredAt (returns : Bool) (body : Body) (starts : List Nat) (k : BlockId) (d : Nat) : Prop :=
  ∃ start, StartsAt starts k start ∧ Meets returns body ⟨start, d⟩

theorem EnteredAt.unique (balanced : Balanced returns body) {e : Nat}
    (first : EnteredAt returns body starts k d) (second : EnteredAt returns body starts k e) :
    d = e := by
  obtain ⟨start, here, met⟩ := first
  obtain ⟨start', there, met'⟩ := second
  cases here.symm.trans there
  exact balanced.agrees met met' rfl

namespace CutFrom

theorem meets_inside (from_ : CutFrom body starts g) (balanced : Balanced returns body)
    (here : StartsAt starts k start) (met : Meets returns body ⟨start, d⟩) {j : Nat}
    (inside : start + j < body.stopOf starts k) :
    ∃ e, levelAfter? returns d
        ((body.blockOf starts k start (body.stopOf starts k)).instrs.take j) = some e ∧
      Meets returns body ⟨start + j, e⟩ := by
  induction j with
  | zero => exact ⟨d, rfl, met⟩
  | succ j ih =>
    obtain ⟨e, known, met⟩ := ih (by omega)
    have bound := (from_.cut.gap here).2.1
    have found : body.instrs[start + j]? = some body.instrs[start + j] :=
      List.getElem?_eq_getElem (by omega)
    obtain ⟨effect, taken, enough, -⟩ := (balanced.runs met found).effect
    have same := getElem?_blockOf body starts k (show start + j < body.stopOf starts k by omega)
    have plain := from_.plain_inside here found (Nat.le_add_right start j) (by omega)
    refine ⟨e - effect.pops + effect.pushes, ?_, ?_⟩
    · rw [levelAfter?_take (same.trans found) known]
      exact Instr.level?_eq_some.mpr ⟨effect, taken, enough, rfl⟩
    · exact met.step (.next found taken enough (Instr.falls_of_plain plain)
        (show start + j + 1 < body.instrs.length by omega))

theorem fits (from_ : CutFrom body starts g) (balanced : Balanced returns body)
    (linked : body.Linked) (here : StartsAt starts k start) (met : Meets returns body ⟨start, d⟩) :
    (body.blockOf starts k start (body.stopOf starts k)).Fits returns
      (EnteredAt returns body starts) d := by
  obtain ⟨before, inside, -⟩ := from_.cut.gap here
  obtain ⟨last, found, ends, kind⟩ := from_.cut.exists_last here
  obtain ⟨j, final⟩ : ∃ j, start + j + 1 = body.stopOf starts k :=
    ⟨body.stopOf starts k - start - 1, by omega⟩
  rw [← final, Nat.add_sub_cancel] at found
  have below : start + j < body.stopOf starts k := by omega
  obtain ⟨e, known, met⟩ := from_.meets_inside balanced here met below
  have runs := balanced.runs met found
  obtain ⟨effect, taken, enough, returned⟩ := runs.effect
  have size := length_blockOf starts k before inside
  have level := levelAfter?_take ((getElem?_blockOf body starts k below).trans found) known
  rw [List.take_of_length_le (by omega),
    Instr.level?_eq_some.mpr ⟨effect, taken, enough, rfl⟩] at level
  refine ⟨⟨from_.cut.targets_ne_nil linked here, ?_⟩, _,
    by rw [Block.exitLevel?, level, Option.map_some], ?_, ?_⟩
  · intro open_
    rw [kind] at open_
    have more := runs.onward (BlockKind.ofFlow_open.mp open_)
    dsimp only at more
    simp only [blockOf, ← final, if_pos more]
    simp
  · intro s among
    obtain ⟨edge, exits⟩ := Block.exists_exit among
    obtain ⟨m, exits, there⟩ := exists_right (from_.exits_cut here found final) exits
    refine ⟨m, there, met.step ?_⟩
    simp only [kind, BlockKind.ofFlow_leave]
    exact .of_exit found taken enough exits
  · intro i end_ op
    cases ends.symm.trans end_
    rw [if_neg fun leaves => by
      rw [kind, BlockKind.ofFlow_leave, Instr.flow, op] at leaves
      cases leaves]
    exact returned op

end CutFrom

theorem toGraph_levelled (numbered : body.Numbered) (linked : body.Linked)
    (proper : ∀ clause ∈ body.clauses, clause.Proper body) (agrees : methods.Agrees body.instrs)
    (balanced : Balanced returns body) (done : body.toGraph = .ok g) :
    ∃ starts, g.Levelled methods returns (EnteredAt returns body starts) := by
  obtain ⟨starts, cut, -, made⟩ := toGraph_ok done
  have from_ : CutFrom body starts g := by
    subst made
    exact ⟨cut, rfl, rfl, congrArg List.range (length_blocksFrom ..), rfl⟩
  have c := toGraph_consistent numbered done
  refine ⟨starts, ⟨c.laid, c.tight, fun _ _ live => toGraph_forked done live⟩, ?_, ?_, ?_, ?_, ?_⟩
  · intro k b live i inside
    obtain ⟨start, -, rfl⟩ := exists_start from_.slots live
    rw [instrs_blockOf] at inside
    exact agrees i (List.mem_of_mem_drop (List.mem_of_mem_take inside))
  · rw [from_.entry]
    exact ⟨0, by rw [StartsAt, ← List.head?_eq_getElem?, cut.first], .enter .start⟩
  · rintro k b d live ⟨start, here, met⟩
    rw [from_.block here] at live
    cases live
    exact from_.fits balanced linked here met
  · intro r listed h entry
    rw [from_.regions] at listed
    obtain ⟨clause, inside, rfl⟩ := List.mem_map.mp listed
    obtain ⟨n, index, there⟩ := (from_.handlerEntry_cut proper inside).mp entry
    exact ⟨n, there, .enter (.handler inside index)⟩
  · intro r listed f entry
    rw [from_.regions] at listed
    obtain ⟨clause, inside, rfl⟩ := List.mem_map.mp listed
    obtain ⟨id, n, filtered, index, there⟩ := (from_.filterEntry_cut proper inside).mp entry
    exact ⟨n, there, .enter (.filter inside filtered index)⟩

end Body

theorem Instr.stackEffect?_congr {i x : Instr} (opcode : x.opcode = i.opcode)
    (operand : x.operand = i.operand) : x.stackEffect? returns = i.stackEffect? returns := by
  simp only [Instr.stackEffect?, Instr.method?, opcode, operand]

theorem Instr.stackEffect?_of_jump {i : Instr} (jump : i.isJump = true) :
    i.stackEffect? returns = some i.opcode.fixedStack := by
  rw [Instr.isJump, Instr.flow] at jump
  cases op : i.opcode with
  | br form | leave form | branch condition form | switch => simp [Instr.stackEffect?, op]
  | _ =>
    rw [op] at jump
    cases jump

theorem Instr.stackEffect?_of_mark {i x : Instr} (same : x.mark = i.mark) :
    x.stackEffect? returns = i.stackEffect? returns := by
  have opcode := Instr.opcode_of_mark same
  have jumps : x.isJump = i.isJump := by rw [Instr.isJump, Instr.flow, opcode]; rfl
  by_cases jump : i.isJump = true
  · rw [Instr.stackEffect?_of_jump jump, Instr.stackEffect?_of_jump (jumps.trans jump), opcode]
  · have operand := congrArg (fun m => m.2.2) same
    simp only [Instr.mark, jumps, if_neg jump, Option.some.injEq] at operand
    exact Instr.stackEffect?_congr opcode operand

theorem Block.Fits.enters {b : Block} {d e : Nat} (fits : b.Fits returns entered d)
    (known : levelAfter? returns d b.instrs = some e) {s : BlockId} (among : s ∈ b.successors) :
    entered s (if b.kind = .leave then 0 else e) := by
  obtain ⟨_, level, leads, -⟩ := fits.level
  rw [Block.exitLevel?, known, Option.map_some] at level
  cases level
  exact leads s among

namespace Graph
variable {g : Graph} {id : BlockId} {b : Block} {written : List Piece} {last : Nat} {body : Body}

/-- The depth that levels give to an index: that of the code before it in its block. -/
def LevelAt (returns : Bool) (entered : BlockId → Nat → Prop) (g : Graph) (written : List Piece)
    (n d : Nat) : Prop :=
  ∃ id b j first, Stands written id j n ∧ g.block? id = some b ∧ entered id first ∧
    levelAfter? returns first (b.instrs.take j) = some d

namespace LevelAt
variable {n d e : Nat}

theorem counted (level : LevelAt returns entered g written n d) {j : Nat}
    (stands : Stands written id j n) (live : g.block? id = some b) :
    ∃ first, entered id first ∧ levelAfter? returns first (b.instrs.take j) = some d := by
  obtain ⟨id', b', j', first, stands', live', enters, known⟩ := level
  obtain ⟨rfl, rfl⟩ := stands.unique stands'
  cases live.symm.trans live'
  exact ⟨first, enters, known⟩

theorem unique (single : ∀ ⦃id d e⦄, entered id d → entered id e → d = e)
    (one : LevelAt returns entered g written n d) (other : LevelAt returns entered g written n e) :
    d = e := by
  obtain ⟨id, b, j, first, stands, live, enters, known⟩ := one
  obtain ⟨first', enters', known'⟩ := other.counted stands live
  cases single enters enters'
  exact Option.some.inj (known.symm.trans known')

end LevelAt

namespace Written
variable {start j d e n m : Nat} {i x : Instr}

theorem target_begins (w : Written g written last body) (c : g.Consistent)
    (begins : Begins written id start) (live : g.block? id = some b)
    (here : b.instrs[j]? = some i) (final : j + 1 = b.instrs.length)
    (found : body.instrs[start + j]? = some x) (same : x.mark = i.mark) {t : InstrId}
    (goes : t ∈ x.targets) (index : body.index? t = some m) :
    ∃ s ∈ b.successors, Begins written s m := by
  have kind := kind_of_last here final
  by_cases switches : x.opcode = .switch
  · rw [Instr.opcode_of_mark same] at switches
    have kind : b.kind = .switch := by
      rw [kind, Instr.flow, switches]
      rfl
    obtain ⟨ms, offset, starts, made⟩ := w.last_switch c begins live here final kind
    cases found.symm.trans made
    simp only [Instr.targets, switches, if_true] at goes
    obtain ⟨s, listed, goal, there, index'⟩ := exists_of_forall₂_mem starts.flip goes
    cases index.symm.trans index'
    refine ⟨s, ?_, there⟩
    simp only [Block.successors, kind]
    exact List.mem_append_left _ listed
  · obtain ⟨-, jump⟩ := Instr.targets_single goes switches
    have kinds : b.kind = .branch ∨ b.kind = .leave ∨ b.kind = .conditional := by
      have other : i.flow ≠ .switch := by
        rw [Instr.opcode_of_mark same] at switches
        exact fun flow => switches (Opcode.eq_switch_of_flow flow)
      rw [Instr.isJump, Instr.flow, Instr.opcode_of_mark same] at jump
      rw [kind]
      revert jump other
      rw [Instr.flow]
      cases i.opcode.flow <;> simp [Flow.isJump, BlockKind.ofFlow]
    obtain ⟨s, t', goal, offset, head, there, index', made⟩ :=
      w.last_jump c begins live here final kinds
    cases found.symm.trans made
    rw [Instr.targets_of_jump jump, List.mem_singleton] at goes
    subst goes
    cases index.symm.trans index'
    refine ⟨s, ?_, there⟩
    rcases kinds with kind | kind | kind <;> simp [Block.successors, kind, head]

theorem live_of_begins (w : Written g written last body) (begins : Begins written id n) :
    ∃ b, g.block? id = some b := by
  obtain ⟨k, p, here, rfl, -⟩ := begins
  obtain ⟨b, link, jump, f, piece⟩ := (pieces_at w.pieces).2 here
  exact ⟨b, piece.live⟩

theorem level_begin (w : Written g written last body) (c : g.Consistent)
    (begins : Begins written id n) (enters : entered id d) :
    LevelAt returns entered g written n d := by
  obtain ⟨b, live⟩ := w.live_of_begins begins
  have filled := List.length_pos_of_ne_nil (c.filled live)
  exact ⟨id, b, 0, d, w.stands_own begins live filled, live, enters, rfl⟩

theorem level_last (w : Written g written last body) (c : g.Consistent)
    (levelled : g.Levelled methods returns entered)
    (begins : Begins written id start) (live : g.block? id = some b) (enters : entered id d)
    (here : b.instrs[j]? = some i) (final : j + 1 = b.instrs.length)
    (found : body.instrs[start + j]? = some x) (same : x.mark = i.mark) {s' : StackState}
    (known : levelAfter? returns d (b.instrs.take j) = some e)
    (leads : Body.Leads returns body ⟨start + j, e⟩ s') :
    LevelAt returns entered g written s'.index s'.depth := by
  have fits := levelled.blocks live enters
  have flow : x.flow = i.flow := by rw [Instr.flow, Instr.opcode_of_mark same, Instr.flow]
  have kind := kind_of_last here final
  rw [← flow] at kind
  have whole : ∀ {effect : StackEffect}, x.stackEffect? returns = some effect → effect.pops ≤ e →
      levelAfter? returns d b.instrs = some (e - effect.pops + effect.pushes) := by
    intro effect taken enough
    have level := levelAfter?_take here known
    rw [List.take_of_length_le (by omega)] at level
    rw [Instr.stackEffect?_of_mark same] at taken
    exact level.trans (Instr.level?_eq_some.mpr ⟨effect, taken, enough, rfl⟩)
  cases leads with
  | @jump _ effect t m found' taken enough goes index =>
    cases found.symm.trans found'
    obtain ⟨s, among, there⟩ :=
      w.target_begins c begins live here final found same goes index
    have onto := fits.enters (whole taken enough) among
    simp only [kind, BlockKind.ofFlow_leave] at onto
    exact w.level_begin c there onto
  | @next _ effect found' taken enough falls more =>
    cases found.symm.trans found'
    have open_ : b.kind = .fallThrough ∨ b.kind = .conditional ∨ b.kind = .switch := by
      rw [kind]
      exact BlockKind.ofFlow_open.mpr falls
    obtain ⟨t, onward⟩ := Option.ne_none_iff_exists'.mp (fits.complete.fall open_)
    -- The next index begins the block to fall to, or holds the jump to it at the same level.
    have place : start + b.instrs.length = start + j + 1 := by omega
    rcases w.stands_behind begins live onward open_ with there | stands
    · have onto := fits.enters (whole taken enough) (Block.fall_mem_successors onward open_)
      rw [if_neg (by rcases open_ with kind | kind | kind <;> simp [kind])] at onto
      rw [place] at there
      exact w.level_begin c there onto
    · rw [place] at stands
      refine ⟨id, b, b.instrs.length, d, stands, live, enters, ?_⟩
      rw [List.take_length]
      exact whole taken enough

theorem level_early (w : Written g written last body) (c : g.Consistent)
    (begins : Begins written id start) (live : g.block? id = some b) (enters : entered id d)
    (here : b.instrs[j]? = some i) (early : j + 1 < b.instrs.length)
    (found : body.instrs[start + j]? = some x) (same : x.mark = i.mark) {s' : StackState}
    (known : levelAfter? returns d (b.instrs.take j) = some e)
    (leads : Body.Leads returns body ⟨start + j, e⟩ s') :
    LevelAt returns entered g written s'.index s'.depth := by
  cases leads with
  | jump found' taken enough goes index =>
    cases found.symm.trans found'
    have ends := Instr.isTerminal_of_target goes
    rw [Instr.isTerminal, Instr.flow, Instr.opcode_of_mark same] at ends
    have := c.last_of_terminal live here ends
    omega
  | @next _ effect found' taken enough falls more =>
    cases found.symm.trans found'
    refine ⟨id, b, j + 1, d, w.stands_own begins live early, live, enters, ?_⟩
    rw [Instr.stackEffect?_of_mark same] at taken
    rw [levelAfter?_take here known]
    exact Instr.level?_eq_some.mpr ⟨effect, taken, enough, rfl⟩

theorem level_added (w : Written g written last body) (c : g.Consistent)
    (levelled : g.Levelled methods returns entered) (live : g.block? id = some b)
    (enters : entered id d) {t : BlockId} {goal : Nat} {name : InstrId} (falls : b.fall = some t)
    (open_ : b.kind = .fallThrough ∨ b.kind = .conditional ∨ b.kind = .switch)
    (found : body.instrs[n]? = some x) (opcode : x.opcode = .br .long)
    (operand : x.operand = .target name) (there : Begins written t goal)
    (index : body.index? name = some goal) {s' : StackState}
    (known : levelAfter? returns d b.instrs = some e) (leads : Body.Leads returns body ⟨n, e⟩ s') :
    LevelAt returns entered g written s'.index s'.depth := by
  have onto := (levelled.blocks live enters).enters known (Block.fall_mem_successors falls open_)
  rw [if_neg (by rcases open_ with kind | kind | kind <;> simp [kind])] at onto
  have flow : x.flow = .unconditional := by rw [Instr.flow, opcode]; rfl
  cases leads with
  | jump found' taken enough goes index' =>
    cases found.symm.trans found'
    have targets : x.targets = [name] := by
      simp [Instr.targets, operand, Instr.isJump, flow, Flow.isJump]
    rw [targets, List.mem_singleton] at goes
    subst goes
    cases index.symm.trans index'
    simp only [Instr.stackEffect?, opcode, Opcode.fixedStack, Option.some.injEq] at taken
    subst taken
    simp only [flow]
    exact w.level_begin c there onto
  | next found' taken enough falls' more =>
    cases found.symm.trans found'
    rw [flow] at falls'
    cases falls'

theorem level_step (w : Written g written last body) (c : g.Consistent)
    (levelled : g.Levelled methods returns entered)
    {s s' : StackState} (level : LevelAt returns entered g written s.index s.depth)
    (leads : Body.Leads returns body s s') :
    LevelAt returns entered g written s'.index s'.depth := by
  obtain ⟨n, e⟩ := s
  obtain ⟨x, found⟩ : ∃ x, body.instrs[n]? = some x := by
    cases leads with
    | jump found => exact ⟨_, found⟩
    | next found => exact ⟨_, found⟩
  cases w.source c found with
  | @own id b start j i live begins place here opcode =>
    subst place
    have bound := (List.getElem?_eq_some_iff.mp here).1
    obtain ⟨y, found', same⟩ := w.exists_marked begins live here
    cases found.symm.trans found'
    obtain ⟨first, enters, known⟩ := level.counted (w.stands_own begins live bound) live
    rcases Nat.lt_or_eq_of_le (Nat.succ_le_of_lt bound) with early | final
    · exact w.level_early c begins live enters here early found same known leads
    · exact w.level_last c levelled begins live enters here final found same known leads
  | added live begins place falls open_ opcode operand there index stands =>
    obtain ⟨first, enters, known⟩ := level.counted stands live
    rw [List.take_length] at known
    exact w.level_added c levelled live enters falls open_ found opcode operand there index known
      leads

theorem level_enter (w : Written g written last body) (c : g.Consistent)
    (levelled : g.Levelled methods returns entered) (guarded : g.Guarded) {s : StackState}
    (enters : Body.Enters body s) :
    LevelAt returns entered g written s.index s.depth := by
  cases enters with
  | start =>
    obtain ⟨rest, layout⟩ := List.head?_eq_some_iff.mp c.entryFirst
    exact w.level_begin c (begins_entry (w.blocks.trans layout)) levelled.entry
  | handler inside index =>
    obtain ⟨r, listed, a, z, h, e, bounds⟩ := w.bounds_of_clause c guarded inside
    obtain ⟨x, first, there⟩ := bounds.handler_begins (guarded r listed)
    cases index.symm.trans bounds.handlerStart
    rw [bounds.flags]
    exact w.level_begin c there (levelled.handlers r listed x first)
  | filter inside filtered index =>
    obtain ⟨r, listed, a, z, h, e, bounds⟩ := w.bounds_of_clause c guarded inside
    obtain ⟨x, first, there⟩ := bounds.filter_begins (guarded r listed) filtered index
    exact w.level_begin c there (levelled.filters r listed x first)

theorem level_met (w : Written g written last body) (c : g.Consistent)
    (levelled : g.Levelled methods returns entered)
    (guarded : g.Guarded) {s : StackState} (met : Body.Meets returns body s) :
    LevelAt returns entered g written s.index s.depth := by
  induction met with
  | enter enters => exact w.level_enter c levelled guarded enters
  | step _ leads ih => exact w.level_step c levelled ih leads

theorem effect_of_level (w : Written g written last body) (c : g.Consistent)
    (levelled : g.Levelled methods returns entered) (level : LevelAt returns entered g written n e)
    (found : body.instrs[n]? = some x) :
    ∃ effect, x.stackEffect? returns = some effect ∧ effect.pops ≤ e ∧
      (x.opcode = .ret → e - effect.pops + effect.pushes = 0) := by
  cases w.source c found with
  | @own id b start j i live begins place here opcode =>
    subst place
    have bound := (List.getElem?_eq_some_iff.mp here).1
    obtain ⟨y, found', same⟩ := w.exists_marked begins live here
    cases found.symm.trans found'
    obtain ⟨first, enters, known⟩ := level.counted (w.stands_own begins live bound) live
    obtain ⟨out, exit, -, returned⟩ := (levelled.blocks live enters).level
    obtain ⟨total, whole, rfl⟩ := Option.map_eq_some_iff.mp exit
    have next := levelAfter?_take here known
    rw [← List.take_append_drop (j + 1) b.instrs, levelAfter?_append, next] at whole
    obtain ⟨after, level, rest⟩ := Option.bind_eq_some_iff.mp whole
    obtain ⟨effect, taken, enough, rfl⟩ := Instr.level?_eq_some.mp level
    refine ⟨effect, (Instr.stackEffect?_of_mark same).trans taken, enough, fun op => ?_⟩
    rw [opcode] at op
    -- A return ends its block, so that the depth after it is that of the block.
    have ends : i.isTerminal = true := by rw [Instr.isTerminal, Instr.flow, op]; rfl
    have final := c.last_of_terminal live here ends
    rw [List.drop_of_length_le (by omega)] at rest
    cases rest
    have ended : b.instrs.getLast? = some i := by
      rw [List.getLast?_eq_getElem?, ← final, Nat.add_sub_cancel, here]
    have left := returned i ended op
    rwa [kind_of_last here final, Instr.flow, op, if_neg (by decide)] at left
  | added live begins place falls open_ opcode operand there index stands =>
    refine ⟨⟨0, 0⟩, by simp [Instr.stackEffect?, opcode, Opcode.fixedStack], Nat.zero_le e, ?_⟩
    rw [opcode]
    intro op
    cases op

theorem balanced (w : Written g written last body) (c : g.Consistent)
    (levelled : g.Levelled methods returns entered)
    (guarded : g.Guarded) (complete : g.Complete)
    (single : ∀ ⦃id d e⦄, entered id d → entered id e → d = e) : Body.Balanced returns body where
  handlers clause inside := by
    obtain ⟨h, e, index, -⟩ := (w.proper c guarded clause inside).handles
    exact ⟨h, index⟩
  filters clause inside id filtered := by
    obtain ⟨f, h, index, -⟩ :=
      (w.proper c guarded clause inside).inFront id filtered
    exact ⟨f, index⟩
  runs met found := by
    refine ⟨w.effect_of_level c levelled (w.level_met c levelled guarded met) found, ?_, ?_⟩
    · intro t goes
      exact w.targets_found c (List.mem_of_getElem? found) goes
    · intro falls
      exact w.more_behind c found falls fun live kind =>
        (complete live).fall (by rw [kind]; exact BlockKind.ofFlow_open.mpr falls)
  agrees met met' same := by
    have level := w.level_met c levelled guarded met
    rw [same] at level
    exact level.unique single (w.level_met c levelled guarded met')

end Written

namespace Levelled

theorem entered_of_reached (levelled : g.Levelled methods returns entered)
    (reached : g.Reached id) : ∃ d, entered id d := by
  induction reached with
  | entry => exact ⟨0, levelled.entry⟩
  | step _ leads _ ih =>
    obtain ⟨d, enters⟩ := ih
    rcases mem_leadsTo.mp leads with ⟨b, live, among⟩ | ⟨r, listed, -, entry | entry⟩
    · obtain ⟨e, -, onto, -⟩ := (levelled.blocks live enters).level
      exact ⟨e, onto _ among⟩
    · exact ⟨_, levelled.handlers r listed _ entry⟩
    · exact ⟨_, levelled.filters r listed _ entry⟩

theorem complete (levelled : g.Levelled methods returns entered)
    (alive : ∀ id, g.contains id = true → g.Reached id) : g.Complete := by
  intro id b live
  obtain ⟨d, enters⟩ := levelled.entered_of_reached (alive id (contains_iff.mpr ⟨b, live⟩))
  exact (levelled.blocks live enters).complete

end Levelled
end Graph
end Unravel
