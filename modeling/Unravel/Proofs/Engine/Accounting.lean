import Unravel.Proofs.Engine.Requests
import Unravel.Proofs.Pass.Tally

/-!
What the journal of an engine tells of what is gone. A schedule records all that it takes away. What
goes after it is not recorded: the blocks that are dead at the end, and clauses that are not written
for want of a range. If the schedule runs at all and the clauses of the body are proper there are no
such blocks and clauses, so the journal accounts for everything.
-/
namespace Unravel.Engine
variable {c : Config} {e e' : Engine} {methods methods' : MethodTable} {m : Method}
variable {b new : Body} {g first : Graph} {events : Journal}

theorem length_clauses_finish (l : g.Laid) (guarded : g.Guarded) (done : finish m g = .ok new) :
    new.clauses.length = g.regions.length := by
  obtain ⟨code, depth, wrote, -, rfl⟩ := finish_ok done
  obtain ⟨pieces, last, w⟩ := Graph.toBody_drafted l wrote
  exact w.length_clauses l guarded

variable {seen : Resolver}

theorem tally_cut (cut : (simplified c seen m b).1.toGraph = .ok first) :
    first.tally = ⟨first.blocks.length, b.clauses.length⟩ := by
  have names := sameNames_simplified c seen m b
  obtain ⟨starts, -, -, rfl⟩ := Body.toGraph_ok cut
  rw [Graph.tally, Body.graphOf, List.length_map, names.clauses]

/-- The journal tells of all that the schedule takes away. It tells of all that is gone if the
    schedule runs and no clause lacks a range. -/
theorem transform_accounts (stored : m.body = some b)
    (done : transform e.config seen m b = .ok (new, events)) :
    ∃ first ran last, Stages e seen m b first ran last new ∧
      events.Accounts ⟨first.blocks.length, b.clauses.length⟩ ran.tally ∧
      (e.config.maxIterations ≠ 0 → (∀ clause ∈ b.clauses, clause.Proper b) →
        events.Accounts ⟨first.blocks.length, b.clauses.length⟩
          ⟨last.blocks.length, new.clauses.length⟩) := by
  obtain ⟨first, last, n, cut, ⟨rounds, ran⟩, pruned, wrote, rfl⟩ := transform_ok done
  have laid := Body.toGraph_laid cut
  obtain ⟨laid', accounts⟩ := Schedule.run_accounts e.config ⟨m, seen, e.config⟩ laid
  have early : (simplified e.config seen m b).2.Accounts first.tally first.tally :=
    Journal.accounts_inner (fun event inside => Event.inner_of_kind
      (simplified_events e.config seen m b event inside).2 nofun nofun nofun) _
  have all := early.trans accounts
  rw [tally_cut cut] at all
  refine ⟨first, _, last, ⟨stored, cut, rfl, ⟨n, pruned⟩, wrote⟩, all, fun some_ proper => ?_⟩
  have names := sameNames_simplified e.config seen m b
  have guarded := Body.toGraph_guarded (names.proper proper) cut
  have alive := Schedule.run_alive ⟨m, seen, e.config⟩ laid guarded some_ ran
  cases (alive.removeDead laid').symm.trans pruned
  have guarded' := Schedule.run_guarded e.config ⟨m, seen, e.config⟩ guarded
  rw [length_clauses_finish laid' guarded' wrote]
  exact all

theorem cleanMethod_transformed
    (done : e.cleanMethod methods m = .ok (.transformed, e', methods')) :
    ∃ b new events, m.body = some b ∧ transform e.config methods m b = .ok (new, events) ∧
      methods' = methods.setBody m.token new ∧
      e'.journal =
        e.journal ++ (events ++ [{ kind := .codeRegenerated, method := some m.token }]) := by
  obtain ⟨⟨outcome, e₁, m'⟩, cleaned_, rest⟩ := bind_ok_iff.mp done
  unfold cleaned at cleaned_
  split at cleaned_
  · cases cleaned_
  · split at cleaned_
    · cases cleaned_
      cases rest
    · rename_i b marked passes
      obtain ⟨has, -, rfl⟩ := gate?_some passes
      dsimp only at cleaned_
      cases ran : transform e.config methods m b with
      | error cause =>
        rw [ran] at cleaned_
        cases cleaned_
        cases rest
      | ok result =>
        rw [ran] at cleaned_
        cases cleaned_
        cases rest
        exact ⟨b, result.1, result.2, (code?_some has).1, ran, rfl, rfl⟩

theorem accounts_regenerated (token : Token) (t : Tally) :
    Journal.Accounts [{ kind := .codeRegenerated, method := some token }] t t := ⟨rfl, rfl⟩

/-- What cleaning a method records accounts for all that its schedule takes away; it accounts for
    all that is gone from the body if the schedule runs and the clauses of the body are proper. -/
theorem cleanMethod_accounts (done : e.cleanMethod methods m = .ok (.transformed, e', methods')) :
    ∃ b first ran last new recorded, Stages e methods m b first ran last new ∧
      methods' = methods.setBody m.token new ∧ e'.journal = e.journal ++ recorded ∧
      recorded.Accounts ⟨first.blocks.length, b.clauses.length⟩ ran.tally ∧
      (e.config.maxIterations ≠ 0 → (∀ clause ∈ b.clauses, clause.Proper b) →
        recorded.Accounts ⟨first.blocks.length, b.clauses.length⟩
          ⟨last.blocks.length, new.clauses.length⟩) := by
  obtain ⟨b, new, events, stored, cleaned, table, journal⟩ := cleanMethod_transformed done
  obtain ⟨first, ran, last, stages, scheduled, all⟩ := transform_accounts stored cleaned
  refine ⟨b, first, ran, last, new, _, stages, table, journal,
    scheduled.trans (accounts_regenerated _ _), fun some_ proper => ?_⟩
  exact (all some_ proper).trans (accounts_regenerated _ _)

def bypassedTry : Body where
  instrs := [⟨0, .br .long, .target 4, 0⟩, ⟨1, .leave .long, .target 4, 5⟩, ⟨2, .pop, .none, 10⟩,
    ⟨3, .leave .long, .target 4, 11⟩, ⟨4, .ret, .none, 16⟩]
  clauses := [⟨.typed, 1, some 2, 2, some 4, none, none⟩]
  nextId := 5

/-- The range and its handler go, with the clause, and the return is joined to the jump. -/
theorem bypassedTry_accounts :
    (∀ clause ∈ bypassedTry.clauses, clause.Proper bypassedTry) ∧
      ∃ e' methods' first ran last new,
        ({} : Engine).cleanMethod ⟨[{ body := some bypassedTry }]⟩ { body := some bypassedTry } =
          .ok (.transformed, e', methods') ∧
        Stages {} (MethodTable.mk [{ body := some bypassedTry }]) { body := some bypassedTry }
          bypassedTry first ran last new ∧
        e'.journal.Accounts ⟨first.blocks.length, bypassedTry.clauses.length⟩
          ⟨last.blocks.length, new.clauses.length⟩ := by
  have proper : ∀ clause ∈ bypassedTry.clauses, clause.Proper bypassedTry := by
    intro clause inside
    rw [List.mem_singleton.mp inside]
    exact ⟨⟨1, 2, rfl, rfl, by decide⟩, ⟨2, 4, rfl, rfl, by decide⟩, rfl, nofun⟩
  obtain ⟨b, first, ran, last, new, recorded, stages, -, journal, -, all⟩ :=
    @cleanMethod_accounts {} _ ⟨[{ body := some bypassedTry }]⟩ _ { body := some bypassedTry } rfl
  cases stages.stored
  rw [show recorded = _ from journal.symm] at all
  exact ⟨proper, _, _, first, ran, last, new, rfl, stages, all (by decide) proper⟩

def strayNop : Body where
  instrs := [⟨0, .br .long, .target 2, 0⟩, ⟨1, .nop, .none, 5⟩, ⟨2, .ret, .none, 6⟩]
  nextId := 3

def emptyTry : Body where
  instrs := [⟨0, .nop, .none, 0⟩, ⟨1, .ret, .none, 1⟩]
  clauses := [⟨.typed, 0, some 0, 1, none, none, none⟩]
  nextId := 2

/-- Without rounds the stray instruction goes with nothing recorded, and so does, at any time, the
    empty clause. -/
theorem silent_removals :
    (∃ e' methods' first ran last new,
      ({ config := { maxIterations := 0 } } : Engine).cleanMethod ⟨[{ body := some strayNop }]⟩
        { body := some strayNop } = .ok (.transformed, e', methods') ∧
      Stages { config := { maxIterations := 0 } } (MethodTable.mk [{ body := some strayNop }])
        { body := some strayNop } strayNop first ran last new ∧
      first.blocks.length = 3 ∧ last.blocks.length = 2 ∧
      e'.journal.count .blockRemoved + e'.journal.count .blocksMerged = 0) ∧
    ∃ e' methods' first ran last new,
      ({} : Engine).cleanMethod ⟨[{ body := some emptyTry }]⟩ { body := some emptyTry } =
        .ok (.transformed, e', methods') ∧
      Stages {} (MethodTable.mk [{ body := some emptyTry }]) { body := some emptyTry } emptyTry
        first ran last new ∧
      emptyTry.clauses.length = 1 ∧ new.clauses.length = 0 ∧
      e'.journal.count .handlerRemoved = 0 := by
  refine ⟨⟨_, _, _, _, _, _, rfl, ⟨rfl, rfl, rfl, ⟨1, rfl⟩, rfl⟩, rfl, rfl, rfl⟩, ?_⟩
  exact ⟨_, _, _, _, _, _, rfl, ⟨rfl, rfl, rfl, ⟨0, rfl⟩, rfl⟩, rfl, rfl, rfl⟩

end Unravel.Engine
