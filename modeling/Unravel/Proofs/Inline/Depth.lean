import Unravel.Proofs.Graph.Pruning
import Unravel.Proofs.Inline.Calls
import Unravel.Proofs.Inline.Pending
import Unravel.Proofs.Pass.Locality

/-!
Inlining follows no recursion and stops. A forwarder is accepted together with all that it invokes,
and each of those is looked into below it: none of them comes twice on a path, and the method itself
comes on none. So a path of forwarders is no longer than the fuel they are looked into with. A run
of the pass puts the code of a forwarder in place of its call, and the calls in that code need less
fuel; when no fuel is left, no call is to a forwarder.
-/
namespace Unravel.Inline
variable {ctx : PassContext} {g : Graph} {t u : Token} {code : List Instr} {chain : List Token}
  {n : Nat}

def Accepts (ctx : PassContext) (t : Token) : Prop := (splice? ctx depthLimit [] t).isSome = true

instance : Decidable (Accepts ctx t) := inferInstanceAs (Decidable (_ = true))

/-- The method that an instruction hands control to, by a call of any kind or by a jump. -/
def invoked? (i : Instr) : Option Token :=
  if i.flow = .call ∨ i.opcode = .jmp then i.method?.map MethodRef.token else none

/-- The body of one method, if it is found and can be read, invokes another one. -/
def Invokes (ctx : PassContext) (t u : Token) : Prop :=
  ∃ callee body, ctx.methods.resolve? t = some callee ∧ callee.readable? = some body ∧
    ∃ i ∈ body.instrs, invoked? i = some u

theorem accepts_of_invoked {accepts : Token → Bool} {i : Instr}
    (fine : isSpliceable ctx accepts i = true) (invokes : invoked? i = some u) :
    accepts u = true := by
  refine accepts_of_isSpliceable fine ?_
  unfold invoked? at invokes
  split at invokes
  · rename_i hands
    obtain ⟨ref, named, rfl⟩ := Option.map_eq_some_iff.mp invokes
    have operand : i.operand = .method ref := by
      unfold Instr.method? at named
      split at named
      · cases named
        assumption
      · cases named
    unfold isSpliceable at fine
    split at fine
    · cases fine
    · cases op : i.opcode <;>
        simp_all [callee?, Instr.flow, Opcode.flow, Opcode.acts]
  · cases invokes

theorem invoked?_of_flow {i : Instr} (calls : i.flow ≠ .call) (jumps : i.opcode ≠ .jmp) :
    invoked? i = none := by
  rw [invoked?, if_neg]
  exact not_or.mpr ⟨calls, jumps⟩

theorem splice?_invokes (spliced : (splice? ctx n chain t).isSome = true)
    (invokes : Invokes ctx t u) :
    ∃ m, n = m + 1 ∧ (splice? ctx m (t :: chain) u).isSome = true := by
  obtain ⟨code, spliced⟩ := Option.isSome_iff_exists.mp spliced
  cases n with
  | zero => cases spliced
  | succ n =>
    refine ⟨n, rfl, ?_⟩
    obtain ⟨callee, body, resolved, readable, i, inside, names⟩ := invokes
    obtain ⟨_, loads, -, -, resolved', forwards, fine⟩ := splice?_succ spliced
    cases resolved.symm.trans resolved'
    obtain ⟨_, last, readable', -, whole, ends⟩ := forwards.body
    cases readable.symm.trans readable'
    rw [whole, List.mem_append, List.mem_append, List.mem_singleton] at inside
    rcases inside with (load | inside) | rfl
    · obtain ⟨slot, op⟩ := loadsInOrder_opcode forwards.ordered i load
      rw [invoked?_of_flow (by simp [Instr.flow, op, Opcode.flow]) (by simp [op])] at names
      cases names
    · exact accepts_of_invoked (fine i inside) names
    · rw [invoked?_of_flow (by simp [Instr.flow, ends, Opcode.flow]) (by simp [ends])] at names
      cases names

theorem isSome_splice?_mono {m : Nat} (le : n ≤ m)
    (spliced : (splice? ctx n chain t).isSome = true) :
    (splice? ctx m [] t).isSome = true := by
  obtain ⟨code, spliced⟩ := Option.isSome_iff_exists.mp spliced
  rw [splice?_mono le (List.nil_subset _) spliced]
  rfl

theorem splice?_same {m : Nat} {chain' : List Token} {code' : List Instr}
    (one : splice? ctx n chain t = some code) (other : splice? ctx m chain' t = some code') :
    code = code' := by
  have up := splice?_mono (Nat.le_max_left n m) (List.nil_subset _) one
  have up' := splice?_mono (Nat.le_max_right n m) (List.nil_subset _) other
  exact Option.some.inj (up.symm.trans up')

theorem splice?_free (spliced : (splice? ctx n chain t).isSome = true) :
    0 < n ∧ t ≠ ctx.method.token ∧ t ∉ chain := by
  obtain ⟨code, spliced⟩ := Option.isSome_iff_exists.mp spliced
  cases n with
  | zero => cases spliced
  | succ n =>
    obtain ⟨-, -, own, free, -⟩ := splice?_succ spliced
    exact ⟨Nat.succ_pos n, own, free⟩

theorem path_of_splice? {rest : List Token} (spliced : (splice? ctx n chain t).isSome = true)
    (path : List.IsChain (Invokes ctx) (t :: rest)) :
    (t :: rest).Nodup ∧ (t :: rest).length ≤ n ∧
      ∀ u ∈ t :: rest, u ≠ ctx.method.token ∧ u ∉ chain ∧ (splice? ctx n [] u).isSome = true := by
  obtain ⟨fuel, own, free⟩ := splice?_free spliced
  have here := isSome_splice?_mono (Nat.le_refl n) spliced
  induction rest generalizing n chain t with
  | nil => exact ⟨List.nodup_singleton t, fuel, List.forall_mem_singleton.mpr ⟨own, free, here⟩⟩
  | cons next rest ih =>
    obtain ⟨invokes, path⟩ := List.isChain_cons_cons.mp path
    obtain ⟨m, rfl, below⟩ := splice?_invokes spliced invokes
    obtain ⟨fuel', own', free'⟩ := splice?_free below
    obtain ⟨nodup, short, each⟩ :=
      ih below path fuel' own' free' (isSome_splice?_mono (Nat.le_refl m) below)
    refine ⟨List.nodup_cons.mpr ⟨fun again => ?_, nodup⟩, Nat.succ_le_succ short,
      List.forall_mem_cons.mpr ⟨⟨own, free, here⟩, fun u inside => ?_⟩⟩
    · exact (each t again).2.1 List.mem_cons_self
    · obtain ⟨own, apart, accepted⟩ := each u inside
      exact ⟨own, fun listed => apart (List.mem_cons_of_mem t listed),
        isSome_splice?_mono (Nat.le_succ m) accepted⟩

def Shallow (ctx : PassContext) (n : Nat) (code : List Instr) : Prop :=
  CallsIn (fun t => Accepts ctx t → (splice? ctx n [] t).isSome = true) code

def Quiet (ctx : PassContext) (code : List Instr) : Prop := CallsIn (fun t => ¬ Accepts ctx t) code

theorem Shallow.mono {m : Nat} (shallow : Shallow ctx n code) (le : n ≤ m) : Shallow ctx m code :=
  fun i inside t calls accepted => isSome_splice?_mono le (shallow i inside t calls accepted)

theorem shallow_start (ctx : PassContext) (code : List Instr) : Shallow ctx depthLimit code :=
  fun _ _ _ _ accepted => accepted

theorem Shallow.quiet (shallow : Shallow ctx 0 code) : Quiet ctx code := by
  intro i inside t calls accepted
  cases shallow i inside t calls accepted

theorem shallow_expand {fresh : InstrId} {call : Instr}
    (spliced : splice? ctx (n + 1) [] t = some code) : Shallow ctx n (expand fresh call code) :=
  callsIn_expand fun _ inside _ calls _ => splice?_calls spliced inside calls

theorem shallow_expandAll {fresh : InstrId} (shallow : Shallow ctx (n + 1) code) :
    Shallow ctx n (expandAll ctx fresh code).1 := by
  induction code generalizing fresh with
  | nil => exact CallsIn.nil
  | cons i rest ih =>
    obtain ⟨here, later⟩ := CallsIn.cons_iff.mp shallow
    rcases expandAll_first ctx fresh i rest with ⟨stays, same⟩ | ⟨token, code, calls, isCode, same⟩
    · rw [same]
      refine CallsIn.cons_iff.mpr ⟨fun t calls accepted => ?_, ih later⟩
      rw [Accepts, stays t calls] at accepted
      cases accepted
    · have accepted : Accepts ctx token := by rw [Accepts, isCode]; rfl
      obtain ⟨code', less⟩ := Option.isSome_iff_exists.mp (here token calls accepted)
      rw [same, splice?_same isCode less]
      exact (shallow_expand less).append (ih later)

theorem expandAll_idle_iff (fresh : InstrId) (code : List Instr) :
    (expandAll ctx fresh code).2.2 = [] ↔ Quiet ctx code := by
  induction code generalizing fresh with
  | nil => exact ⟨fun _ => CallsIn.nil, fun _ => rfl⟩
  | cons i rest ih =>
    rw [Quiet, CallsIn.cons_iff]
    rcases expandAll_first ctx fresh i rest with ⟨stays, same⟩ | ⟨token, code, calls, isCode, same⟩
    · rw [same]
      refine (ih fresh).trans ⟨fun quiet => ⟨fun t calls accepted => ?_, quiet⟩, And.right⟩
      rw [Accepts, stays t calls] at accepted
      cases accepted
    · rw [same]
      refine ⟨by simp, fun quiet => absurd ?_ (quiet.1 token calls)⟩
      rw [Accepts, isCode]
      rfl

theorem inlineBlock_cases (ctx : PassContext) {id : BlockId} {b : Block}
    (live : g.block? id = some b) :
    (Quiet ctx b.instrs ∧ inlineBlock ctx g id b = ⟨g, [], .ok false⟩) ∨
      (¬ Quiet ctx b.instrs ∧ (inlineBlock ctx g id b).result = .ok true) := by
  by_cases quiet : Quiet ctx b.instrs
  · refine .inl ⟨quiet, ?_⟩
    rw [inlineBlock, expandAll_unchanged ((expandAll_idle_iff _ _).mpr quiet)]
    dsimp only
    rw [Graph.modify_same live rfl]
    rfl
  · have some_ := mt (expandAll_idle_iff g.nextInstr b.instrs).mp quiet
    exact .inr ⟨quiet, by simp [inlineBlock, some_]⟩

/-- The pass leaves all as it is and says so, or there is a call to a forwarder and the pass tells
    of a change. -/
theorem runAll_cases (ids : List BlockId) (g : Graph) :
    ((∀ id ∈ ids, Quiet ctx (g.code id)) ∧ runAll ctx ids g = ⟨g, [], .ok false⟩) ∨
      ((¬ ∀ id ∈ ids, Quiet ctx (g.code id)) ∧ (runAll ctx ids g).result = .ok true) := by
  induction ids generalizing g with
  | nil => exact .inl ⟨List.forall_mem_nil _, rfl⟩
  | cons id rest ih =>
    rw [runAll, List.forall_mem_cons]
    cases live : g.block? id with
    | none =>
      have quiet : Quiet ctx (g.code id) := by
        rw [Graph.code, live]
        exact CallsIn.nil
      simpa [quiet] using ih g
    | some b =>
      rw [Graph.code_of_live live]
      rcases inlineBlock_cases ctx live with ⟨quiet, idle⟩ | ⟨loud, changed⟩
      · simp only [idle, PassRun.andThen, quiet, true_and]
        rcases ih g with ⟨all, same⟩ | ⟨some_, changed⟩
        · exact .inl ⟨all, by rw [same]; rfl⟩
        · exact .inr ⟨some_, by rw [changed]; rfl⟩
      · refine .inr ⟨fun all => loud all.1, ?_⟩
        simp only [PassRun.andThen, changed]
        rcases ih (inlineBlock ctx g id b).graph with ⟨-, same⟩ | ⟨-, again⟩
        · rw [same]
          rfl
        · rw [again]
          rfl

theorem code_inlineBlock {id other : BlockId} {b : Block} (live : g.block? id = some b) :
    (inlineBlock ctx g id b).graph.code other =
      if id = other then (expandAll ctx g.nextInstr b.instrs).1 else g.code other := by
  rw [Graph.code, inlineBlock_block? ctx live]
  split <;> rfl

theorem shallow_inlineBlock {id other : BlockId} {b : Block} (live : g.block? id = some b)
    (shallow : Shallow ctx n (g.code other)) :
    Shallow ctx n ((inlineBlock ctx g id b).graph.code other) := by
  rw [code_inlineBlock live]
  split
  · rename_i same
    rw [← same, Graph.code_of_live live] at shallow
    exact shallow_expandAll (shallow.mono (Nat.le_succ n))
  · exact shallow

theorem shallow_runAll (ids : List BlockId) (other : BlockId)
    (shallow : Shallow ctx n (g.code other)) :
    Shallow ctx n ((runAll ctx ids g).graph.code other) :=
  runAll_keeps (P := fun g => Shallow ctx n (g.code other))
    (fun shallow live => shallow_inlineBlock live shallow) ids shallow

theorem runAll_lowers {ids : List BlockId} (shallow : ∀ id ∈ ids, Shallow ctx (n + 1) (g.code id)) :
    ∀ id ∈ ids, Shallow ctx n ((runAll ctx ids g).graph.code id) := by
  induction ids generalizing g with
  | nil => exact List.forall_mem_nil _
  | cons id rest ih =>
    obtain ⟨here, later⟩ := List.forall_mem_cons.mp shallow
    rw [runAll]
    cases live : g.block? id with
    | none =>
      refine List.forall_mem_cons.mpr ⟨shallow_runAll rest id ?_, ih later⟩
      rw [Graph.code, live]
      exact CallsIn.nil
    | some b =>
      have ran : (inlineBlock ctx g id b).result =
          .ok (!(expandAll ctx g.nextInstr b.instrs).2.2.isEmpty) := rfl
      simp only [PassRun.andThen, ran]
      refine List.forall_mem_cons.mpr ⟨shallow_runAll rest id ?_, ih fun other inside => ?_⟩
      · rw [Graph.code_of_live live] at here
        rw [code_inlineBlock live, if_pos rfl]
        exact shallow_expandAll here
      · exact shallow_inlineBlock live (later other inside)

def successive (ctx : PassContext) (g : Graph) : Nat → Graph
  | 0 => g
  | n + 1 => (pass.run n ctx (successive ctx g n)).graph

theorem layout_successive (ctx : PassContext) (g : Graph) (n : Nat) :
    (successive ctx g n).layout = g.layout := by
  induction n with
  | zero => rfl
  | succ n ih => exact ((pass_frame _ n ctx).layout).trans ih

theorem shallow_successive (ctx : PassContext) (g : Graph) (n : Nat) :
    ∀ id ∈ g.layout, Shallow ctx (depthLimit - n) ((successive ctx g n).code id) := by
  induction n with
  | zero => exact fun id _ => shallow_start ctx _
  | succ n ih =>
    have ran : successive ctx g (n + 1) =
        (runAll ctx (successive ctx g n).layout (successive ctx g n)).graph := rfl
    rw [ran, layout_successive]
    cases left : depthLimit - n with
    | zero =>
      rw [show depthLimit - (n + 1) = 0 by omega]
      exact fun id inside => shallow_runAll g.layout id (left ▸ ih id inside)
    | succ m =>
      rw [show depthLimit - (n + 1) = m by omega]
      exact runAll_lowers fun id inside => left ▸ ih id inside

theorem quiet_blocks_iff :
    (∀ b ∈ g.blocks, Quiet ctx b.instrs) ↔ ∀ id ∈ g.layout, Quiet ctx (g.code id) := by
  constructor
  · intro all id listed i inside
    obtain ⟨b, live, among⟩ := Graph.mem_code.mp inside
    exact all b (Graph.mem_blocks.mpr ⟨id, listed, live⟩) i among
  · intro all b listed
    obtain ⟨id, inside, live⟩ := Graph.mem_blocks.mp listed
    rw [← Graph.code_of_live live]
    exact all id inside

theorem pass_cases (ctx : PassContext) (round : Nat) (g : Graph) :
    ((∀ b ∈ g.blocks, Quiet ctx b.instrs) ∧ pass.run round ctx g = ⟨g, [], .ok false⟩) ∨
      ((¬ ∀ b ∈ g.blocks, Quiet ctx b.instrs) ∧ (pass.run round ctx g).result = .ok true) := by
  rw [quiet_blocks_iff]
  exact runAll_cases g.layout g

theorem quiet_successive (ctx : PassContext) (g : Graph) :
    ∀ b ∈ (successive ctx g depthLimit).blocks, Quiet ctx b.instrs := by
  rw [quiet_blocks_iff, layout_successive]
  exact fun id inside => (shallow_successive ctx g depthLimit id inside).quiet

theorem successive_stays {k : Nat} (quiet : ∀ b ∈ (successive ctx g k).blocks, Quiet ctx b.instrs)
    (n : Nat) : successive ctx g (k + n) = successive ctx g k := by
  induction n with
  | zero => rfl
  | succ n ih =>
    change (pass.run (k + n) ctx (successive ctx g (k + n))).graph = _
    rw [ih]
    rcases pass_cases ctx (k + n) (successive ctx g k) with ⟨-, idle⟩ | ⟨loud, -⟩
    · rw [idle]
    · exact absurd quiet loud

/-- Forwarders are not recursive, and all that they invoke is forwarders. Runs of the pass that
    follow one another tell of a change at most eight times, all before those that do not; then no
    call is one to a forwarder. A run that tells of no change has made none. -/
theorem inlining_stops (ctx : PassContext) :
    (∀ t rest, Accepts ctx t → List.IsChain (Invokes ctx) (t :: rest) →
      (t :: rest).Nodup ∧ ctx.method.token ∉ t :: rest ∧ ∀ u ∈ t :: rest, Accepts ctx u) ∧
    (∀ g, ∃ k ≤ 8, (∀ n, (pass.run n ctx (successive ctx g n)).result = .ok (decide (n < k))) ∧
      ∀ n, k ≤ n → ∀ b ∈ (successive ctx g n).blocks, ∀ i ∈ b.instrs, ∀ t, callee? i = some t →
        ¬ Accepts ctx t) ∧
    ∀ round g, (pass.run round ctx g).result = .ok false →
      (pass.run round ctx g).graph = g := by
  refine ⟨fun t rest accepted path => ?_, fun g => ?_, fun round g idle => ?_⟩
  · obtain ⟨nodup, -, each⟩ := path_of_splice? accepted path
    exact ⟨nodup, fun inside => (each _ inside).1 rfl, fun u inside => (each u inside).2.2⟩
  · classical
    have settles : ∃ k, ∀ b ∈ (successive ctx g k).blocks, Quiet ctx b.instrs :=
      ⟨depthLimit, quiet_successive ctx g⟩
    have stays : ∀ n, Nat.find settles ≤ n →
        ∀ b ∈ (successive ctx g n).blocks, Quiet ctx b.instrs := by
      intro n late
      obtain ⟨m, rfl⟩ := Nat.exists_eq_add_of_le late
      rw [successive_stays (Nat.find_spec settles)]
      exact Nat.find_spec settles
    refine ⟨Nat.find settles, Nat.find_min' settles (quiet_successive ctx g), fun n => ?_,
      fun n late b listed i inside t => stays n late b listed i inside t⟩
    rcases pass_cases ctx n (successive ctx g n) with ⟨quiet, idle⟩ | ⟨loud, changed⟩
    · rw [idle, decide_eq_false (Nat.not_lt.mpr (Nat.find_min' settles quiet))]
    · rw [changed, decide_eq_true (Nat.not_le.mp fun late => loud (stays n late))]
  · rcases pass_cases ctx round g with ⟨-, same⟩ | ⟨-, changed⟩
    · rw [same]
    · cases changed.symm.trans idle

/-- The masker has its sum made by the adder: one run expands the one, the next run the other. -/
theorem maskedCall_inlining_stops :
    Accepts maskedContext masker.token ∧ Invokes maskedContext masker.token adder.token ∧
      Accepts maskedContext adder.token ∧
      ∀ n, (pass.run n maskedContext (successive maskedContext maskedCall n)).result =
        .ok (decide (n < 2)) := by
  have accepted : Accepts maskedContext masker.token := by decide
  have invokes : Invokes maskedContext masker.token adder.token :=
    ⟨masker, _, by decide, rfl, ⟨2, .call, .method adder.ref, 4⟩, by decide, by decide⟩
  obtain ⟨paths, runs, -⟩ := inlining_stops maskedContext
  obtain ⟨-, -, each⟩ := paths masker.token [adder.token] accepted (List.isChain_pair.mpr invokes)
  obtain ⟨k, -, told, -⟩ := runs maskedCall
  have second : decide (1 < k) = true := Except.ok.inj ((told 1).symm.trans rfl)
  have third : decide (2 < k) = false := Except.ok.inj ((told 2).symm.trans rfl)
  have two : k = 2 := by
    rw [decide_eq_true_eq] at second
    rw [decide_eq_false_iff_not] at third
    omega
  exact ⟨accepted, invokes, each _ (by simp), two ▸ told⟩

end Unravel.Inline
