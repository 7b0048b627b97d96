import Unravel.Opcode.Table

namespace Unravel.Opcode

theorem longForm_shortForm (op : Opcode) : op.shortForm.longForm = op.longForm := by
  cases op <;> rfl

theorem longForm_longForm (op : Opcode) : op.longForm.longForm = op.longForm := by
  cases op <;> rfl

theorem shortForm_longForm (op : Opcode) : op.longForm.shortForm = op.shortForm := by
  cases op <;> rfl

theorem flow_longForm (op : Opcode) : op.longForm.flow = op.flow := by
  cases op <;> rfl

theorem eq_switch_of_flow {op : Opcode} (switches : op.flow = .switch) : op = .switch := by
  cases op with
  | switch => rfl
  | _ => cases switches

theorem isBranch_of_operandKind {op : Opcode}
    (wide : op.operandKind = .branch ∨ op.operandKind = .shortBranch) :
    ∃ form, (op = .br form ∨ op = .leave form ∨ ∃ c, op = .branch c form) ∧
      op.operandKind = form.branchOperand := by
  cases op with
  | plain op => cases op <;> rcases wide with wide | wide <;> cases wide
  | ldarg s | ldloc s | stloc s => cases s <;> rcases wide with wide | wide <;> cases wide
  | ldarga f | starg f | ldloca f => cases f <;> rcases wide with wide | wide <;> cases wide
  | br f => exact ⟨f, .inl rfl, rfl⟩
  | leave f => exact ⟨f, .inr (.inl rfl), rfl⟩
  | branch c f => exact ⟨f, .inr (.inr ⟨c, rfl⟩), rfl⟩
  | _ => rcases wide with wide | wide <;> cases wide

theorem operandKind_shortForm {op : Opcode} (long : op.operandKind = .branch) :
    op.shortForm.operandKind = .shortBranch := by
  obtain ⟨form, rfl | rfl | ⟨c, rfl⟩, -⟩ := isBranch_of_operandKind (.inl long) <;> rfl

theorem flow_of_shortBranch {op : Opcode} (short : op.operandKind = .shortBranch) :
    op.flow = .unconditional ∨ op.flow = .leave ∨ op.flow = .conditional := by
  obtain ⟨form, rfl | rfl | ⟨c, rfl⟩, -⟩ := isBranch_of_operandKind (.inr short)
  · exact .inl rfl
  · exact .inr (.inl rfl)
  · exact .inr (.inr rfl)

theorem operandKind_longForm (op : Opcode) : op.longForm.operandKind ≠ .shortBranch := by
  intro short
  obtain ⟨form, same, -⟩ := isBranch_of_operandKind (.inr short)
  cases op with
  | br f | leave f => cases short
  | branch c f => cases short
  | _ => obtain same | same | ⟨c, same⟩ := same <;> cases same

end Unravel.Opcode
