import ShareNotes.Lib.Decimal

/-!
# Notes

A note in memory carries its dates as instants; the store keeps whole seconds.
`time.Now()` is a call on the clock, so a function that reads the clock takes
its readings as arguments, in the order in which they are made.
-/

namespace ShareNotes.NoteRecord

open ShareNotes.Lib.Decimal

/-- An instant, in nanoseconds since the epoch. -/
abbrev Time := ℤ

/-- `t.Unix()`: whole seconds, rounded down. -/
def unix (t : Time) : ℤ := t / 1000000000

/-- `time.Unix(sec, 0)`. -/
def ofUnix (sec : ℤ) : Time := sec * 1000000000

theorem unix_mono {t u : Time} (h : t ≤ u) : unix t ≤ unix u :=
  Int.ediv_le_ediv (by decide) h

structure Note where
  noteID : ℤ
  title : Bytes
  text : Bytes
  addDate : Time
  changeDate : Time
  deriving DecidableEq

/-- `Note{}`: the zero `time.Time` is the first instant of the year 1. -/
instance : Inhabited Note := ⟨⟨0, [], [], ofUnix (-62135596800), ofUnix (-62135596800)⟩⟩

/-- `New`, with its two readings of the clock. -/
def Note.new (title text : Bytes) (addDate changeDate : Time) : Note :=
  ⟨0, title, text, addDate, changeDate⟩

def Note.newLocal (noteID : ℤ) (title text : Bytes) (addDate changeDate : Time) : Note :=
  ⟨noteID, title, text, addDate, changeDate⟩

def Note.setTitle (n : Note) (title : Bytes) (now : Time) : Note :=
  { n with title := title, changeDate := now }

def Note.setText (n : Note) (text : Bytes) (now : Time) : Note :=
  { n with text := text, changeDate := now }

end ShareNotes.NoteRecord
