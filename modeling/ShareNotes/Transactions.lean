import ShareNotes.Manager

/-!
# What the writing methods report, and what they leave open

Each of `AddNote`, `UpdateNote` and `DeleteNote` begins a transaction, prepares
and executes one statement, and commits. The result of the commit is dropped, so
a failed commit is reported as a success; and the returns before the commit end
the method without ending the transaction. Both theorems say exactly when this
does not matter.
-/

namespace ShareNotes.Transactions

open ShareNotes.Lib.Decimal ShareNotes.Lib.KeyedRows ShareNotes.NoteRecord ShareNotes.Manager

/-- A call of a writing method. -/
inductive WriteCall
  | addNote (n : Note)
  | updateNote (n : Note)
  | deleteNote (noteID : ℤ)

def WriteCall.run (db : Database) (o : TxOutcome) : WriteCall → Option GoError × Database
  | .addNote n => db.addNote o n
  | .updateNote n => db.updateNote o n
  | .deleteNote noteID => db.deleteNote o noteID

/-- The insert, update or delete that a call is for. -/
def WriteCall.write : WriteCall → Write
  | .addNote n => .addNoteExec n.title n.text (unix n.addDate) (unix n.changeDate)
  | .updateNote n => .updateNoteExec n.title n.text (unix n.changeDate) (itoa n.noteID)
  | .deleteNote noteID => .deleteNoteExec (itoa noteID)

theorem WriteCall.run_eq (db : Database) (o : TxOutcome) (c : WriteCall) :
    c.run db o = db.execWrite o c.write := by
  cases c <;> rfl

/-! ### Reports -/

/-- The write was committed between the two states, and nothing else was. -/
def InStore (w : Write) (db db' : Database) : Prop :=
  db'.journal = db.journal ++ [w] ∧ db'.notes = w.apply db.notes

def SameStore (db db' : Database) : Prop :=
  db'.journal = db.journal ∧ db'.notes = db.notes

/-- A call that returns no error is in the store and no other is, and a call
that returns an error changed nothing. -/
def Reported (db : Database) (o : TxOutcome) (c : WriteCall) : Prop :=
  ((c.run db o).1 = none ↔ InStore c.write db (c.run db o).2) ∧
    ((c.run db o).1 ≠ none → SameStore db (c.run db o).2)

/-- The commit is reached and fails. -/
def CommitFails (o : TxOutcome) : Prop :=
  o.beginErr = none ∧ o.prepareErr = none ∧ o.execErr = none ∧ o.commitErr ≠ none

theorem not_inStore_of_sameStore {w : Write} {db db' : Database} (h : SameStore db db') :
    ¬InStore w db db' := by
  intro hin
  have hlen := congrArg List.length hin.1
  rw [h.1, List.length_append, List.length_singleton] at hlen
  omega

/-- An early return changes nothing and says so. -/
theorem reported_of_err {db : Database} {o : TxOutcome} {c : WriteCall} {err : GoError}
    {db' : Database} (hrun : c.run db o = (some err, db')) (hsame : SameStore db db') :
    Reported db o c := by
  rw [Reported, hrun]
  constructor
  · constructor
    · intro h
      exact absurd h (by simp)
    · intro h
      exact absurd h (not_inStore_of_sameStore hsame)
  · intro _
    exact hsame

/-- **A call's report is right exactly unless its commit fails.** -/
theorem reported_iff (db : Database) (o : TxOutcome) (c : WriteCall) :
    Reported db o c ↔ ¬CommitFails o := by
  have hrun := c.run_eq db o
  rw [Database.execWrite] at hrun
  cases hbegin : o.beginErr with
  | some err =>
    rw [hbegin] at hrun
    have hno : ¬CommitFails o := fun h => absurd h.1 (by simp [hbegin])
    exact iff_of_true (reported_of_err hrun ⟨rfl, rfl⟩) hno
  | none =>
    cases hprepare : o.prepareErr with
    | some err =>
      rw [hbegin, hprepare] at hrun
      have hno : ¬CommitFails o := fun h => absurd h.2.1 (by simp [hprepare])
      exact iff_of_true (reported_of_err hrun ⟨rfl, rfl⟩) hno
    | none =>
      cases hexec : o.execErr with
      | some err =>
        rw [hbegin, hprepare, hexec] at hrun
        have hno : ¬CommitFails o := fun h => absurd h.2.2.1 (by simp [hexec])
        exact iff_of_true (reported_of_err hrun ⟨rfl, rfl⟩) hno
      | none =>
        rw [hbegin, hprepare, hexec] at hrun
        rw [Reported, hrun]
        cases hcommit : o.commitErr with
        | none =>
          have hno : ¬CommitFails o := fun h => h.2.2.2 hcommit
          refine iff_of_true ⟨?_, fun h => absurd rfl h⟩ hno
          exact iff_of_true rfl ⟨rfl, rfl⟩
        | some err =>
          have hfails : CommitFails o := ⟨hbegin, hprepare, hexec, by simp [hcommit]⟩
          have hlost : ¬InStore c.write db (db.begin.2.commit db.begin.1 c.write (some err)) :=
            not_inStore_of_sameStore ⟨rfl, rfl⟩
          exact iff_of_false (fun h => hlost (h.1.mp rfl)) (fun h => h hfails)

/-- A full disk at the commit: the note is lost and the method returns nil. -/
theorem lost_add_reported :
    ¬Reported (Database.opened RowTable.empty)
      ⟨none, none, none, some (.external (ascii "database or disk is full"))⟩
      (.addNote (Note.new (ascii "a") (ascii "b") 0 0)) := by
  intro h
  exact absurd (h.1.mp rfl).1 (by decide)

/-! ### Open transactions -/

/-- Of the transactions begun by each call of a sequence, none is open when the call returns. -/
def NoneOutlives : Database → List (WriteCall × TxOutcome) → Prop
  | _, [] => True
  | db, (c, o) :: calls =>
    (∀ id ∈ (c.run db o).2.openTransactions, id < db.begun) ∧ NoneOutlives (c.run db o).2 calls

/-- The transaction is begun and its statement is not prepared or not executed. -/
def Abandons (o : TxOutcome) : Prop :=
  o.beginErr = none ∧ (o.prepareErr ≠ none ∨ o.execErr ≠ none)

/-- **One call leaves its transaction open exactly when it abandons it.** -/
theorem open_lt_begun_iff (db : Database) (o : TxOutcome) (c : WriteCall) :
    (∀ id ∈ (c.run db o).2.openTransactions, id < db.begun) ↔ ¬Abandons o := by
  have hleft : ¬∀ id ∈ db.begin.2.openTransactions, id < db.begun := by
    intro h
    exact absurd (h db.begun List.mem_cons_self) (lt_irrefl _)
  rw [c.run_eq, Database.execWrite]
  cases hbegin : o.beginErr with
  | some err => exact iff_of_true db.open_lt fun h => absurd h.1 (by simp [hbegin])
  | none =>
    cases hprepare : o.prepareErr with
    | some err =>
      have hab : Abandons o := ⟨hbegin, Or.inl (by simp [hprepare])⟩
      exact iff_of_false hleft fun h => h hab
    | none =>
      cases hexec : o.execErr with
      | some err =>
        have hab : Abandons o := ⟨hbegin, Or.inr (by simp [hexec])⟩
        exact iff_of_false hleft fun h => h hab
      | none =>
        have hno : ¬Abandons o := by
          intro h
          rcases h.2 with hp | he
          · exact hp hprepare
          · exact he hexec
        refine iff_of_true ?_ hno
        have hclosed : (db.begin.2.commit db.begin.1 c.write o.commitErr).openTransactions =
            db.openTransactions := by
          have hclosed : (db.begun :: db.openTransactions).erase db.begun =
              db.openTransactions := List.erase_cons_head ..
          cases o.commitErr <;> exact hclosed
        show ∀ id ∈ (db.begin.2.commit db.begin.1 c.write o.commitErr).openTransactions, _
        rw [hclosed]
        exact db.open_lt

/-- **No transaction outlives its call exactly when no call abandons its own.** -/
theorem noneOutlives_iff (db : Database) (calls : List (WriteCall × TxOutcome)) :
    NoneOutlives db calls ↔ ∀ p ∈ calls, ¬Abandons p.2 := by
  induction calls generalizing db with
  | nil => simp [NoneOutlives]
  | cons p calls ih =>
    rw [NoneOutlives, open_lt_begun_iff, ih, List.forall_mem_cons]

/-- A locked database: the delete fails and its transaction stays open. -/
theorem abandoned_delete_stays_open :
    ¬NoneOutlives (Database.opened RowTable.empty)
      [(.deleteNote 1, ⟨none, none, some (.external (ascii "database is locked")), none⟩)] := by
  intro h
  exact absurd (h.1 0 (by decide)) (by decide)

end ShareNotes.Transactions
