import Mathlib.Data.List.Basic

/-!
A mailbox with one place. Its owner requests a message, which opens it, a
sender fills it, and the owner takes the message when it goes on. A trace of
events, the latest first, is in order if none of the operations comes at the
wrong time; then every message answers one request, the latest before it, and
the owner has taken it before the next request.
-/

namespace Jos.Lib

/-- What may happen to a mailbox: `r` says what is requested, `m` is a message.
The owner takes whenever it goes on, also when there is nothing to take; a new
owner closes the mailbox. -/
inductive MailOp (ρ μ : Type*) where
  | request (r : ρ)
  | send (m : μ)
  | take
  | renew

inductive Mailbox (ρ μ : Type*) where
  | closed
  | waiting (r : ρ)
  | full (r : ρ) (m : μ)
  | taken (r : ρ) (m : μ)

namespace Mailbox

variable {ρ μ ε : Type*} {r : ρ} {m : μ} {b : Mailbox ρ μ} {op : ε → Option (MailOp ρ μ)}
  {l l₁ l₂ : List ε} {x : ε}

/-- The operation, if it does not come at the wrong time. -/
def next : Mailbox ρ μ → MailOp ρ μ → Option (Mailbox ρ μ)
  | _, .renew => some .closed
  | .closed, .request r => some (.waiting r)
  | .closed, .take => some .closed
  | .waiting r, .send m => some (.full r m)
  | .full r m, .take => some (.taken r m)
  | .taken _ _, .request r => some (.waiting r)
  | .taken r m, .take => some (.taken r m)
  | _, _ => none

/-- The mailbox after the events of a trace, those that are operations on it. -/
def after (op : ε → Option (MailOp ρ μ)) : List ε → Option (Mailbox ρ μ)
  | [] => some .closed
  | x :: l => (after op l).bind fun b => (op x).elim (some b) b.next

@[simp] theorem after_nil : after op [] = some .closed := rfl

/-- An event that is no operation on the mailbox. -/
theorem after_cons_none (hx : op x = none) : after op (x :: l) = after op l := by
  simp [after, hx]

theorem after_cons_some {o : MailOp ρ μ} (hx : op x = some o) :
    after op (x :: l) = (after op l).bind fun b => b.next o := by
  simp [after, hx]

/-- What comes before was in order as well. -/
theorem after_of_append (h : after op (l₁ ++ l₂) = some b) : ∃ b', after op l₂ = some b' := by
  induction l₁ generalizing b with
  | nil => exact ⟨b, h⟩
  | cons x l₁ ih =>
      obtain ⟨b', hb', -⟩ := Option.bind_eq_some_iff.mp h
      exact ih hb'

/-- The latest operation came at its time. -/
theorem next_of_after {o : MailOp ρ μ} (h : after op (x :: l) = some b) (hx : op x = some o) :
    ∃ b', after op l = some b' ∧ b'.next o = some b := by
  rw [after_cons_some hx] at h
  exact Option.bind_eq_some_iff.mp h

/-! ### The operations in a trace that is in order -/

/-- A message is sent to a mailbox that waits. -/
theorem waiting_of_send (h : after op (l₁ ++ x :: l₂) = some b) (hx : op x = some (.send m)) :
    ∃ r, after op l₂ = some (.waiting r) := by
  obtain ⟨b₁, hb₁⟩ := after_of_append h
  obtain ⟨b', hb', hnext⟩ := next_of_after hb₁ hx
  cases b' with
  | waiting r => exact ⟨r, hb'⟩
  | closed => cases hnext
  | full r m => cases hnext
  | taken r m => cases hnext

/-- The owner of a mailbox that waits does not go on. -/
theorem not_waiting_of_take (h : after op (l₁ ++ x :: l₂) = some b) (hx : op x = some .take) :
    after op l₂ ≠ some (.waiting r) := by
  intro hwait
  obtain ⟨b₁, hb₁⟩ := after_of_append h
  obtain ⟨b', hb', hnext⟩ := next_of_after hb₁ hx
  obtain rfl := Option.some.inj (hb'.symm.trans hwait)
  cases hnext

/-- A mailbox waits when the latest operation on it was a request. -/
theorem waiting_iff (h : after op l = some b) :
    b = .waiting r ↔
      ∃ l₁ x l₂, l = l₁ ++ x :: l₂ ∧ op x = some (.request r) ∧ ∀ y ∈ l₁, op y = none := by
  induction l with
  | nil =>
      obtain rfl := Option.some.inj h
      exact iff_of_false nofun (by rintro ⟨l₁, x, l₂, hl, -⟩; cases l₁ <;> cases hl)
  | cons x l ih =>
      cases hx : op x with
      | none =>
          rw [after_cons_none hx] at h
          rw [ih h]
          constructor
          · rintro ⟨l₁, y, l₂, rfl, hy, hl₁⟩
            refine ⟨x :: l₁, y, l₂, rfl, hy, fun z hz => ?_⟩
            rcases List.mem_cons.mp hz with rfl | hz
            · exact hx
            · exact hl₁ z hz
          · rintro ⟨l₁, y, l₂, hl, hy, hl₁⟩
            cases l₁ with
            | nil =>
                obtain ⟨rfl, -⟩ := List.cons.inj hl
                rw [hx] at hy
                cases hy
            | cons z l₁ =>
                obtain ⟨rfl, rfl⟩ := List.cons.inj hl
                exact ⟨l₁, y, l₂, rfl, hy, fun z hz => hl₁ z (List.mem_cons_of_mem _ hz)⟩
      | some o =>
          obtain ⟨b', -, hnext⟩ := next_of_after h hx
          constructor
          · rintro rfl
            refine ⟨[], x, l, rfl, ?_, fun y hy => absurd hy (List.not_mem_nil)⟩
            cases o <;> cases b' <;> cases hnext
            · exact hx
            · exact hx
          · rintro ⟨l₁, y, l₂, hl, hy, hl₁⟩
            cases l₁ with
            | nil =>
                obtain ⟨rfl, -⟩ := List.cons.inj hl
                obtain rfl := Option.some.inj (hx.symm.trans hy)
                cases b' <;> cases hnext <;> rfl
            | cons z l₁ =>
                obtain ⟨rfl, -⟩ := List.cons.inj hl
                rw [hl₁ x List.mem_cons_self] at hx
                cases hx

/-- A message that has been sent, with no request and no new owner since, is
there to be taken or has been taken. -/
theorem after_send (h : after op (l₁ ++ x :: l₂) = some b)
    (hwait : after op l₂ = some (.waiting r)) (hx : op x = some (.send m))
    (hl₁ : ∀ y ∈ l₁, (∀ r', op y ≠ some (.request r')) ∧ op y ≠ some .renew) :
    b = .full r m ∨ b = .taken r m ∧ ∃ y ∈ l₁, op y = some .take := by
  induction l₁ generalizing b with
  | nil =>
      rw [List.nil_append, after_cons_some hx, hwait] at h
      exact Or.inl (Option.some.inj h).symm
  | cons y l₁ ih =>
      have hrest := fun {b'} hb' => @ih b' hb' fun z hz => hl₁ z (List.mem_cons_of_mem _ hz)
      rw [List.cons_append] at h
      cases hy : op y with
      | none =>
          rw [after_cons_none hy] at h
          refine (hrest h).imp_right fun ⟨htaken, z, hz, htake⟩ => ⟨htaken, z, ?_, htake⟩
          exact List.mem_cons_of_mem _ hz
      | some o =>
          obtain ⟨b', hb', hnext⟩ := next_of_after h hy
          obtain ⟨hrequest, hrenew⟩ := hl₁ y List.mem_cons_self
          -- in a full mailbox and in one that has been read the owner may only go on
          cases o with
          | request r' => exact absurd hy (hrequest r')
          | renew => exact absurd hy hrenew
          | send m' => rcases hrest hb' with rfl | ⟨rfl, -⟩ <;> cases hnext
          | take =>
              refine Or.inr ⟨?_, y, List.mem_cons_self, hy⟩
              rcases hrest hb' with rfl | ⟨rfl, -⟩
              · exact (Option.some.inj hnext).symm
              · exact (Option.some.inj hnext).symm

/-- Until the owner goes on, or there is a new one, nothing happens to a mailbox
that is full. -/
theorem none_after_send (h : after op (l₁ ++ x :: l₂) = some b) (hx : op x = some (.send m))
    (hl₁ : ∀ y ∈ l₁, op y ≠ some .take ∧ op y ≠ some .renew) :
    (∃ r, b = .full r m) ∧ ∀ y ∈ l₁, op y = none := by
  induction l₁ generalizing b with
  | nil =>
      obtain ⟨b', -, hnext⟩ := next_of_after h hx
      refine ⟨?_, fun y hy => absurd hy (List.not_mem_nil)⟩
      cases b' <;> cases hnext
      exact ⟨_, rfl⟩
  | cons y l₁ ih =>
      rw [List.cons_append] at h
      obtain ⟨b', hb', hnext⟩ := Option.bind_eq_some_iff.mp h
      obtain ⟨⟨r, rfl⟩, hnone⟩ := ih hb' fun z hz => hl₁ z (List.mem_cons_of_mem _ hz)
      obtain ⟨htake, hrenew⟩ := hl₁ y List.mem_cons_self
      cases hy : op y with
      | none =>
          rw [hy] at hnext
          refine ⟨⟨r, (Option.some.inj hnext).symm⟩, fun z hz => ?_⟩
          rcases List.mem_cons.mp hz with rfl | hz
          · exact hy
          · exact hnone z hz
      | some o =>
          rw [hy] at hnext
          cases o with
          | request r' => cases hnext
          | send m' => cases hnext
          | take => exact absurd hy htake
          | renew => exact absurd hy hrenew

end Mailbox

end Jos.Lib
