import Unravel.Proofs.Pass.Scheduling

/-!
What passes read a table for. Inlining looks up the callees of the code at hand, and what is spliced
in for a call is code of a callee. A set of tokens that is closed under calls therefore holds every
token that is ever looked up, if it holds those that the code calls to begin with. Two tables that
hold the same there lead to the same graphs and the same events.
-/
namespace Unravel

def CallsIn (tokens : Token → Prop) (code : List Instr) : Prop :=
  ∀ i ∈ code, ∀ t, Inline.callee? i = some t → tokens t

instance (tokens : Token → Prop) [DecidablePred tokens] (code : List Instr) :
    Decidable (CallsIn tokens code) :=
  inferInstanceAs (Decidable (∀ i ∈ code, ∀ t ∈ Inline.callee? i, tokens t))

/-- Two tables hold the same methods at the tokens of a set, and these call only within it. -/
structure Resolver.AlikeOn (tokens : Token → Prop) (methods methods' : Resolver) : Prop where
  same : ∀ t, tokens t → methods'.resolve? t = methods.resolve? t
  closed : ∀ {t callee body}, tokens t → methods.resolve? t = some callee →
    callee.readable? = some body → CallsIn tokens body.instrs

def PassContext.reading (ctx : PassContext) (methods : Resolver) : PassContext :=
  { ctx with methods }

variable {tokens : Token → Prop} {ctx : PassContext} {methods' : Resolver}

theorem PassRun.andThen_congr {first : PassRun} {next next' : Graph → PassRun}
    (same : next' first.graph = next first.graph) : first.andThen next' = first.andThen next := by
  unfold PassRun.andThen
  rw [same]

theorem Inline.callee?_eq_none {i : Instr} (other : i.opcode ≠ .call) : callee? i = none := by
  unfold callee?
  split
  · rename_i calls _
    exact absurd calls other
  · rfl

namespace CallsIn
variable {code more : List Instr} {i : Instr}

theorem nil : CallsIn tokens [] := fun _ inside => absurd inside List.not_mem_nil

theorem append (one : CallsIn tokens code) (other : CallsIn tokens more) :
    CallsIn tokens (code ++ more) :=
  List.forall_mem_append.mpr ⟨one, other⟩

theorem subset (calls : CallsIn tokens code) (part : more ⊆ code) : CallsIn tokens more :=
  fun i inside => calls i (part inside)

theorem cons_iff : CallsIn tokens (i :: code) ↔
    (∀ t, Inline.callee? i = some t → tokens t) ∧ CallsIn tokens code :=
  List.forall_mem_cons

theorem one (other : i.opcode ≠ .call) : CallsIn tokens [i] := by
  intro j inside t calls
  rw [List.mem_singleton.mp inside, Inline.callee?_eq_none other] at calls
  cases calls

end CallsIn

namespace Inline
variable {t : Token} {code : List Instr} {fuel : Nat} {chain : List Token} {fresh : InstrId}

theorem isSpliceable_congr {accepts accepts' : Token → Bool} {i : Instr}
    (same : ∀ t, callee? i = some t → accepts' t = accepts t) :
    isSpliceable (ctx.reading methods') accepts' i = isSpliceable ctx accepts i := by
  unfold isSpliceable
  split
  · rfl
  · split <;> simp_all [callee?, PassContext.reading]

theorem callsIn_straightCode? (alike : ctx.methods.AlikeOn tokens methods') (inside : tokens t)
    {callee : Method} (resolved : ctx.methods.resolve? t = some callee)
    (straight : straightCode? ctx callee = some code) : CallsIn tokens code := by
  obtain ⟨body, last, readable, -, whole, -⟩ := straightCode?_some straight
  refine (alike.closed inside resolved readable).subset ?_
  rw [whole]
  exact List.subset_append_left code [last]

theorem splice?_alike (alike : ctx.methods.AlikeOn tokens methods') (inside : tokens t) :
    splice? (ctx.reading methods') fuel chain t = splice? ctx fuel chain t := by
  induction fuel generalizing chain t with
  | zero => rfl
  | succ fuel ih =>
    have straight : straightCode? (ctx.reading methods') = straightCode? ctx := rfl
    have method : (ctx.reading methods').method = ctx.method := rfl
    have table : (ctx.reading methods').methods = methods' := rfl
    simp only [splice?, method, table, alike.same t inside, straight]
    split
    · rfl
    · refine Option.bind_congr fun callee resolved => Option.bind_congr fun code cut => ?_
      have calls := callsIn_straightCode? alike inside resolved cut
      have all : (code.drop callee.arity).all (isSpliceable (ctx.reading methods') fun u =>
            (splice? (ctx.reading methods') fuel (t :: chain) u).isSome) =
          (code.drop callee.arity).all (isSpliceable ctx fun u =>
            (splice? ctx fuel (t :: chain) u).isSome) := by
        rw [Bool.eq_iff_iff, List.all_eq_true, List.all_eq_true]
        refine forall₂_congr fun i among => ?_
        rw [isSpliceable_congr fun u named => ?_]
        rw [ih (calls i (List.mem_of_mem_drop among) u named)]
      rw [all]

theorem callsIn_splice? (alike : ctx.methods.AlikeOn tokens methods') (inside : tokens t)
    (spliced : splice? ctx fuel chain t = some code) : CallsIn tokens code := by
  obtain ⟨callee, loads, resolved, forwards⟩ := splice?_some spliced
  obtain ⟨body, last, readable, -, whole, -⟩ := forwards.body
  refine (alike.closed inside resolved readable).subset fun i among => ?_
  simp [whole, among]

theorem callsIn_expand {call : Instr} (calls : CallsIn tokens code) :
    CallsIn tokens (expand fresh call code) := by
  intro i inside t named
  rcases mem_expand inside with rfl | ⟨j, among, same⟩
  · cases named
  · rw [same] at named
    exact calls j among t named

theorem expandAll_alike (alike : ctx.methods.AlikeOn tokens methods')
    (calls : CallsIn tokens code) (fresh : InstrId) :
    expandAll (ctx.reading methods') fresh code = expandAll ctx fresh code ∧
      CallsIn tokens (expandAll ctx fresh code).1 ∧
      ∀ t ∈ (expandAll ctx fresh code).2.2, tokens t := by
  induction code generalizing fresh with
  | nil => exact ⟨rfl, .nil, by simp [expandAll]⟩
  | cons i rest ih =>
    obtain ⟨first, later⟩ := CallsIn.cons_iff.mp calls
    have found : ((callee? i).bind fun t =>
          (splice? (ctx.reading methods') depthLimit [] t).map fun code => (t, code)) =
        (callee? i).bind fun t => (splice? ctx depthLimit [] t).map fun code => (t, code) :=
      Option.bind_congr fun t named => by rw [splice?_alike alike (first t named)]
    simp only [expandAll, found]
    split
    · obtain ⟨same, after, callees⟩ := ih later fresh
      rw [same]
      exact ⟨rfl, CallsIn.cons_iff.mpr ⟨first, after⟩, callees⟩
    · rename_i t code spliced
      obtain ⟨u, named, spliced⟩ := Option.bind_eq_some_iff.mp spliced
      obtain ⟨code', spliced, pair⟩ := Option.map_eq_some_iff.mp spliced
      cases pair
      have inside := first _ named
      obtain ⟨same, after, callees⟩ := ih later (fresh.after (code.length - 1))
      rw [same]
      refine ⟨rfl, (callsIn_expand (callsIn_splice? alike inside spliced)).append after, ?_⟩
      exact List.forall_mem_cons.mpr ⟨inside, callees⟩

end Inline

def Graph.CallsIn (tokens : Token → Prop) (g : Graph) : Prop :=
  ∀ ⦃id b⦄, g.block? id = some b → Unravel.CallsIn tokens b.instrs

namespace Graph.CallsIn
variable {g g' : Graph} {id : BlockId}

theorem modify (calls : g.CallsIn tokens) {f : Block → Block}
    (made : ∀ b, g.block? id = some b → Unravel.CallsIn tokens (f b).instrs) :
    (g.modify id f).CallsIn tokens := by
  intro other b live
  rw [block?_modify] at live
  split at live
  · rename_i same
    subst same
    obtain ⟨d, was, rfl⟩ := Option.map_eq_some_iff.mp live
    exact made d was
  · exact calls live

theorem setLast (calls : g.CallsIn tokens) {f : Instr → Instr}
    (other : ∀ i, (f i).opcode ≠ .call) {b : Block} (live : g.block? id = some b) :
    Unravel.CallsIn tokens (b.setLast f).instrs := by
  refine .append ((calls live).subset (List.dropLast_subset _)) ?_
  cases b.instrs.getLast? with
  | none => exact .nil
  | some i => exact .one (other i)

theorem redirect (calls : g.CallsIn tokens) {target : BlockId}
    (done : g.redirect id target = .ok g') : g'.CallsIn tokens := by
  obtain ⟨d, -, -, -, -, rfl⟩ := redirect_ok done
  exact calls.modify fun b live => calls.setLast (fun i => by simp [jumpInstr]) live

theorem dropTerminator (calls : g.CallsIn tokens) (done : g.dropTerminator id = .ok g') :
    g'.CallsIn tokens := by
  obtain ⟨-, -, -, -, rfl⟩ := dropTerminator_ok done
  exact calls.modify fun b live => calls.setLast (fun i => by simp [Instr.erase]) live

theorem removeDead (calls : g.CallsIn tokens) {n : Nat} (done : g.removeDead = .ok (n, g')) :
    g'.CallsIn tokens := by
  rcases removeDead_ok done with ⟨-, -, rfl⟩ | ⟨-, done⟩
  · exact calls
  · intro other b live
    rw [block?_remove done] at live
    split at live
    · cases live
    · obtain ⟨d, was, rfl⟩ := Option.map_eq_some_iff.mp live
      exact @calls other d was

theorem merge (calls : g.CallsIn tokens) : g.merge.2.CallsIn tokens := by
  refine mergeUpTo_keeps ?_ g.layout.length calls
  intro g pred id first second calls j other b live
  rw [block?_joined j] at live
  split at live
  · cases live
  · split at live
    · cases live
      refine .append ((calls j.before).subset ?_) (calls j.behind)
      unfold openCode
      split
      · exact List.dropLast_subset _
      · exact fun _ among => among
    · exact calls live

end Graph.CallsIn

namespace Inline
variable {g : Graph} {id : BlockId} {b : Block}

theorem inlineBlock_alike (alike : ctx.methods.AlikeOn tokens methods') (calls : g.CallsIn tokens)
    (live : g.block? id = some b) :
    inlineBlock (ctx.reading methods') g id b = inlineBlock ctx g id b ∧
      (inlineBlock ctx g id b).graph.CallsIn tokens := by
  obtain ⟨same, after, callees⟩ := expandAll_alike alike (calls live) g.nextInstr
  have events : ∀ t ∈ (expandAll ctx g.nextInstr b.instrs).2.2,
      event (ctx.reading methods') id t = event ctx id t := by
    intro t inside
    simp only [event, PassContext.reading, alike.same t (callees t inside)]
  constructor
  · simp only [inlineBlock, same, List.map_congr_left events]
  · exact calls.modify fun _ _ => after

theorem runAll_alike (alike : ctx.methods.AlikeOn tokens methods') (ids : List BlockId)
    (calls : g.CallsIn tokens) :
    runAll (ctx.reading methods') ids g = runAll ctx ids g := by
  induction ids generalizing g with
  | nil => rfl
  | cons id rest ih =>
    rw [runAll, runAll]
    split
    · exact ih calls
    · rename_i b live
      obtain ⟨same, after⟩ := inlineBlock_alike alike calls live
      rw [same]
      exact PassRun.andThen_congr (ih after)

end Inline

namespace Fold
variable {g : Graph} {id : BlockId} {b : Block} {pinned : List Nat} {extra : Bool}

theorem callsIn_foldCode (calls : CallsIn tokens b.instrs) (final : State) :
    CallsIn tokens (foldCode final b).instrs := by
  intro i inside t named
  obtain ⟨n, below, rfl⟩ := List.mem_mapIdx.mp inside
  rcases foldInstr_cases final n b.instrs[n] with same | same | ⟨c, same⟩
  · rw [same] at named
    exact calls _ (List.getElem_mem below) t named
  · rw [same] at named
    cases named
  · rw [same, Inline.callee?_eq_none] at named
    · cases named
    · rcases load_opcode c with op | op | op | ⟨n, op⟩ <;> simp [op]

theorem foldBlock_callsIn (calls : g.CallsIn tokens) :
    (foldBlock pinned extra g id b).1.CallsIn tokens := by
  rcases ran : simulate pinned extra b 0 b.instrs {} with ⟨final, decision⟩
  have folded : (g.modify id (foldCode final)).CallsIn tokens :=
    calls.modify fun d there => callsIn_foldCode (calls there) final
  rcases foldBlock_graph g id ran with same | ⟨target, done⟩ | ⟨-, done⟩
  · rw [same]
    exact folded
  · exact folded.redirect done
  · exact folded.dropTerminator done

theorem runAll_reading (ctx : PassContext) (methods' : Resolver) (pinned : List Nat)
    (ids : List BlockId) (g : Graph) :
    runAll (ctx.reading methods') pinned ids g = runAll ctx pinned ids g := by
  induction ids generalizing g with
  | nil => rfl
  | cons id rest ih => exact PassRun.andThen_congr (ih _)

end Fold

namespace Schedule
variable {g : Graph} {passes : List Pass} {round : Nat}

/-- A pass that reads a table only for the tokens of a set, and calls only these. -/
structure Local (tokens : Token → Prop) (ctx : PassContext) (methods' : Resolver) (p : Pass) :
    Prop where
  alike : ∀ round {g : Graph}, g.CallsIn tokens →
    p.run round (ctx.reading methods') g = p.run round ctx g
  keeps : ∀ round {g : Graph}, g.CallsIn tokens → (p.run round ctx g).graph.CallsIn tokens

theorem local_ofConfig (alike : ctx.methods.AlikeOn tokens methods') (c : Config) :
    ∀ p ∈ (ofConfig c).passes, Local tokens ctx methods' p := by
  intro p inside
  rcases mem_passes_ofConfig inside with rfl | rfl
  · refine ⟨fun _ g calls => Inline.runAll_alike alike g.layout calls, fun _ g calls => ?_⟩
    exact Inline.runAll_keeps (fun calls live => (Inline.inlineBlock_alike alike calls live).2)
      g.layout calls
  · refine ⟨fun _ g _ => Fold.runAll_reading ctx methods' (Fold.pinnedLocals g) g.layout g,
      fun _ g calls => ?_⟩
    exact Fold.runAll_keeps (fun calls _ => Fold.foldBlock_callsIn calls) g.layout calls

theorem runPasses_alike (each : ∀ p ∈ passes, Local tokens ctx methods' p) (round : Nat)
    (calls : g.CallsIn tokens) :
    runPasses round (ctx.reading methods') passes g = runPasses round ctx passes g := by
  induction passes generalizing g with
  | nil => rfl
  | cons p rest ih =>
    obtain ⟨here, later⟩ := List.forall_mem_cons.mp each
    rw [runPasses, runPasses, here.alike round calls]
    exact PassRun.andThen_congr (ih later (here.keeps round calls))

theorem runRounds_alike (each : ∀ p ∈ passes, Local tokens ctx methods' p) (rounds round : Nat)
    (calls : g.CallsIn tokens) : runRounds passes (ctx.reading methods') rounds round g =
      runRounds passes ctx rounds round g := by
  induction rounds generalizing g round with
  | zero => rfl
  | succ rounds ih =>
    have same : runRound passes round (ctx.reading methods') g = runRound passes round ctx g := by
      rw [runRound, runRound, runPasses_alike each round calls]
      rfl
    have after : (runRound passes round ctx g).graph.CallsIn tokens :=
      PassRun.andThen_keeps
        (runPasses_keeps (fun p inside round _ => (each p inside).keeps round) round calls)
        (normalize_keeps (fun calls done => calls.removeDead done) fun calls => calls.merge)
    simp only [runRounds, same, ih (round + 1) after]

end Schedule

theorem Body.toGraph_callsIn {body : Body} {g : Graph} (calls : CallsIn tokens body.instrs)
    (cut : body.toGraph = .ok g) : g.CallsIn tokens := by
  obtain ⟨starts, -, -, rfl⟩ := Body.toGraph_ok cut
  intro id b live
  obtain ⟨start, -, rfl⟩ := Body.exists_start rfl live
  exact calls.subset fun i inside => List.mem_of_mem_drop (List.mem_of_mem_take inside)

end Unravel
