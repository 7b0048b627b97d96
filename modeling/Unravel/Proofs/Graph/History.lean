import Unravel.Proofs.Graph.Writing
import Unravel.Proofs.Pass.Folding
import Unravel.Proofs.Pass.Inlining

/-!
Histories of a graph. A graph that was cut from a body is edited any number of times, by single
edits and by whole passes, some of which may fail. The representation invariant holds all along.
-/
namespace Unravel.Graph

inductive Edit
  | redirect (id target : BlockId)
  | dropTerminator (id : BlockId)
  | split (id : BlockId) (index : Nat)
  | remove (ids : List BlockId)
  | merge
  | removeDead
  | repartition
  | allocInstr
  | inline (round : Nat) (ctx : PassContext)
  | fold (round : Nat) (ctx : PassContext)

def unlessFailed (g : Graph) : Except Error Graph → Graph
  | .ok g' => g'
  | .error _ => g

/-- The graph after an edit. A single edit that fails leaves the graph as it was; a pass that fails
    leaves it as far as it came. -/
def Edit.apply (g : Graph) : Edit → Graph
  | .redirect id target => g.unlessFailed (g.redirect id target)
  | .dropTerminator id => g.unlessFailed (g.dropTerminator id)
  | .split id index => (g.split id index).1
  | .remove ids => g.unlessFailed ((g.remove ids).map Prod.snd)
  | .merge => g.merge.2
  | .removeDead => g.unlessFailed (g.removeDead.map Prod.snd)
  | .repartition => g.unlessFailed g.repartition
  | .allocInstr => g.allocInstr.2
  | .inline round ctx => (Inline.pass.run round ctx g).graph
  | .fold round ctx => (Fold.pass.run round ctx g).graph

/-- A terminator is dropped from a two-way branch or a switch only. -/
def Edit.Allowed (g : Graph) : Edit → Prop
  | .dropTerminator id => ∀ b, g.block? id = some b → b.kind = .conditional ∨ b.kind = .switch
  | _ => True

def applyAll (g : Graph) (edits : List Edit) : Graph := edits.foldl Edit.apply g

def AllowedAll : Graph → List Edit → Prop
  | _, [] => True
  | g, e :: rest => e.Allowed g ∧ AllowedAll (e.apply g) rest

def Edit.idsTaken (g : Graph) : Edit → Nat
  | .allocInstr => 1
  | .repartition => g.jumpsAdded g.layout
  | .inline _ ctx => Inline.idsTaken ctx g g.layout
  | _ => 0

/-- No edit makes the id counter overflow at its turn. -/
def FitsAll : Graph → List Edit → Prop
  | _, [] => True
  | g, e :: rest => InstrId.Room g.nextInstr (e.idsTaken g) ∧ FitsAll (e.apply g) rest

instance decidableFitsAll : (g : Graph) → (edits : List Edit) → Decidable (FitsAll g edits)
  | _, [] => .isTrue trivial
  | g, e :: rest =>
    have := decidableFitsAll (e.apply g) rest
    inferInstanceAs (Decidable (_ ∧ _))

variable {g : Graph}

theorem unlessFailed_keeps {P : Graph → Prop} {result : Except Error Graph} (holds : P g)
    (done : ∀ g', result = .ok g' → P g') : P (g.unlessFailed result) := by
  cases result with
  | error e => exact holds
  | ok g' => exact done g' rfl

/-- What an edit does to a graph: nothing, if it fails or finds nothing to do, or what it is
    for. -/
inductive Edit.Does (g : Graph) : Edit → Graph → Prop where
  | idle (e : Edit) : Does g e g
  | redirect {id target : BlockId} {g' : Graph} (done : g.redirect id target = .ok g') :
      Does g (.redirect id target) g'
  | dropTerminator {id : BlockId} {g' : Graph} (done : g.dropTerminator id = .ok g') :
      Does g (.dropTerminator id) g'
  | split {id : BlockId} {index : Nat} {b : Block} (live : g.block? id = some b) (cut : 0 < index)
      (inside : index < b.instrs.length) : Does g (.split id index) (g.splitAt id b index)
  | remove {ids : List BlockId} {n : Nat} {g' : Graph} (done : g.remove ids = .ok (n, g')) :
      Does g (.remove ids) g'
  | merge : Does g .merge g.merge.2
  | removeDead {n : Nat} {g' : Graph} (done : g.remove g.unreachable = .ok (n, g')) :
      Does g .removeDead g'
  | repartition {g' : Graph} (done : g.repartition = .ok g') : Does g .repartition g'
  | allocInstr : Does g .allocInstr g.allocInstr.2
  | inline (round : Nat) (ctx : PassContext) :
      Does g (.inline round ctx) (Inline.pass.run round ctx g).graph
  | fold (round : Nat) (ctx : PassContext) :
      Does g (.fold round ctx) (Fold.pass.run round ctx g).graph

theorem Edit.does (listed : ∀ {id b}, g.block? id = some b → id ∈ g.layout) (e : Edit) :
    e.Does g (e.apply g) := by
  cases e with
  | redirect id target => exact unlessFailed_keeps (.idle _) fun g' done => .redirect done
  | dropTerminator id => exact unlessFailed_keeps (.idle _) fun g' done => .dropTerminator done
  | split id index =>
    change Does g _ (g.split id index).1
    rcases split_cases g id index fun b => listed with same | ⟨b, live, cut, inside, same⟩
    · rw [same]
      exact .idle _
    · rw [same]
      exact .split live cut inside
  | remove ids =>
    refine unlessFailed_keeps (.idle _) fun g' done => ?_
    obtain ⟨_, removed, rfl⟩ := map_ok_iff.mp done
    exact .remove removed
  | merge => exact .merge
  | removeDead =>
    refine unlessFailed_keeps (.idle _) fun g' done => ?_
    obtain ⟨_, removed, rfl⟩ := map_ok_iff.mp done
    rcases removeDead_ok removed with ⟨-, -, same⟩ | ⟨-, removed⟩
    · rw [same]
      exact .idle _
    · exact .removeDead removed
  | repartition => exact unlessFailed_keeps (.idle _) fun g' done => .repartition done
  | allocInstr => exact .allocInstr
  | inline round ctx => exact .inline round ctx
  | fold round ctx => exact .fold round ctx

theorem applyAll_keeps {P : Graph → Prop} {edits : List Edit} (holds : P g)
    (allowed : AllowedAll g edits)
    (step : ∀ {g e}, e ∈ edits → e.Allowed g → P g → P (e.apply g)) : P (g.applyAll edits) := by
  induction edits generalizing g with
  | nil => exact holds
  | cons e rest ih =>
    refine ih (step List.mem_cons_self allowed.1 holds) allowed.2 fun later => ?_
    exact step (List.mem_cons_of_mem e later)

theorem applyAll_keeps_fitting {P : Graph → Prop} {edits : List Edit} (holds : P g)
    (allowed : AllowedAll g edits) (fits : FitsAll g edits)
    (step : ∀ {g e}, e ∈ edits → e.Allowed g → InstrId.Room g.nextInstr (e.idsTaken g) → P g →
      P (e.apply g)) : P (g.applyAll edits) := by
  induction edits generalizing g with
  | nil => exact holds
  | cons e rest ih =>
    refine ih (step List.mem_cons_self allowed.1 fits.1 holds) allowed.2 fits.2 fun later => ?_
    exact step (List.mem_cons_of_mem e later)

theorem Consistent.removeDead {g' : Graph} {n : Nat} (c : g.Consistent)
    (done : g.removeDead = .ok (n, g')) : g'.Consistent := by
  rcases removeDead_ok done with ⟨-, -, rfl⟩ | ⟨-, done⟩
  · exact c
  · exact c.remove done

theorem Consistent.allocInstr (c : g.Consistent) (room : InstrId.Room g.nextInstr 1) :
    g.allocInstr.2.Consistent where
  nodup := c.nodup
  listed := c.listed
  named := c.named
  entryFirst := c.entryFirst
  filled := c.filled
  straight := c.straight
  unique := c.unique
  apart := c.apart
  fresh live n inside := by
    have next : g.allocInstr.2.nextInstr = (g.nextInstr + 1 : Nat) := InstrId.next_of_room room
    rw [next]
    exact Nat.lt_succ_of_lt (c.fresh live n inside)
  closed := c.closed
  regions := c.regions

theorem Consistent.apply (c : g.Consistent) {e : Edit} (allowed : e.Allowed g)
    (room : InstrId.Room g.nextInstr (e.idsTaken g)) : (e.apply g).Consistent := by
  have does := e.does c.listed_of_live
  generalize e.apply g = g' at does ⊢
  cases does with
  | idle => exact c
  | redirect done => exact c.redirect done
  | dropTerminator done => exact c.dropTerminator done allowed
  | split live cut inside => exact c.splitAt live cut inside
  | remove done | removeDead done => exact c.remove done
  | merge => exact c.mergeUpTo g.layout.length
  | repartition done => exact c.repartition room done
  | allocInstr => exact c.allocInstr room
  | inline round ctx => exact Inline.pass_consistent c round ctx room
  | fold round ctx => exact Fold.pass_consistent c round ctx

theorem Consistent.applyAll (c : g.Consistent) {edits : List Edit}
    (allowed : AllowedAll g edits) (fits : FitsAll g edits) : (g.applyAll edits).Consistent :=
  applyAll_keeps_fitting c allowed fits fun _ allowed room c => c.apply allowed room

/-- A graph cut from a body with instruction ids of their own is consistent, and stays so through
    every history in which the id counter does not overflow. -/
theorem consistent_through_history {body : Body} {g : Graph} (numbered : body.Numbered)
    (cut : body.toGraph = .ok g) {edits : List Edit} (allowed : AllowedAll g edits)
    (fits : FitsAll g edits) : (g.applyAll edits).Consistent :=
  (Body.toGraph_consistent numbered cut).applyAll allowed fits

def guardedTest : Body where
  instrs := [⟨0, .ldcI4S, .immediate (.int8 1#8), 0⟩, ⟨1, .branch .isTrue .long, .target 5, 2⟩,
    ⟨2, .leave .long, .target 5, 7⟩, ⟨3, .pop, .none, 12⟩, ⟨4, .leave .long, .target 5, 13⟩,
    ⟨5, .ret, .none, 18⟩]
  clauses := [⟨.typed, 0, some 3, 3, some 5, none, none⟩]
  nextId := 6

theorem guardedTest_consistent_through_history :
    ∃ g, guardedTest.toGraph = .ok g ∧ guardedTest.Numbered ∧
      AllowedAll g [.dropTerminator 0, .split 0 1, .allocInstr, .fold 0 default, .repartition,
        .merge] ∧
      FitsAll g [.dropTerminator 0, .split 0 1, .allocInstr, .fold 0 default, .repartition,
        .merge] ∧
      (g.applyAll [.dropTerminator 0, .split 0 1, .allocInstr, .fold 0 default, .repartition,
        .merge]).Consistent := by
  have numbered : guardedTest.Numbered := ⟨by decide, by decide⟩
  have allowed : ∀ g, guardedTest.toGraph = .ok g →
      AllowedAll g [.dropTerminator 0, .split 0 1, .allocInstr, .fold 0 default, .repartition,
        .merge] := by
    rintro g ⟨⟩
    refine ⟨?_, trivial, trivial, trivial, trivial, trivial, trivial⟩
    rintro b ⟨⟩
    exact .inl rfl
  refine ⟨_, rfl, numbered, allowed _ rfl, by decide +kernel, ?_⟩
  exact consistent_through_history numbered rfl (allowed _ rfl) (by decide +kernel)

end Unravel.Graph
