import Mathlib

/-!
# Allocator — the separable iSLIP allocator

`iSLIP_Sparse` with the single iteration the routers ask for. Requests are pairs of an input and an
output; `Allocate` lets every output grant one requesting input and every input accept one granting
output, each in round-robin order from its pointer.

The two request maps of `SparseAllocator` are kept as ordered key lists: labels and priorities are
always 0 and are never compared.
-/

namespace EnocGem5.Noc

/-! ## Request maps -/

/-- `std::map` insertion on the key list: ordered, and an existing key is overwritten. -/
def insertKey (x : ℕ) : List ℕ → List ℕ
  | [] => [x]
  | y :: ys => if x < y then x :: y :: ys else if x = y then y :: ys else y :: insertKey x ys

/-- The order in which an arbiter with pointer `offset` looks at its requests: from the pointer to
the end, then from the start. The first request is looked at again after the wrap, as in the
source's loop. -/
def scan (offset : ℕ) (req : List ℕ) : List ℕ :=
  req.dropWhile (· < offset) ++
    match req with
    | [] => []
    | p :: ps => p :: ps.takeWhile (· < offset)

/-! ## The allocator -/

/-- `iSLIP_Sparse`; a missing match is the source's `-1`. While no request was added since the last
`Clear`, nothing is requested or matched: this is why `Clear` may skip the reset. -/
structure ISLIPSparse where
  inputs : ℕ
  outputs : ℕ
  dirty : Bool := false
  inmatch : ℕ → Option ℕ := fun _ => none
  outmatch : ℕ → Option ℕ := fun _ => none
  inReq : ℕ → List ℕ := fun _ => []
  outReq : ℕ → List ℕ := fun _ => []
  gptrs : ℕ → ℕ := fun _ => 0
  aptrs : ℕ → ℕ := fun _ => 0
  quiet : dirty = false → ∀ i, inReq i = [] ∧ inmatch i = none := by simp

namespace ISLIPSparse

variable (a : ISLIPSparse)

/-- `SparseAllocator::Clear`: the matches are only reset when a request was added since. -/
def clear : ISLIPSparse :=
  { a with
    inReq := fun _ => []
    outReq := fun _ => []
    inmatch := if a.dirty then fun _ => none else a.inmatch
    outmatch := if a.dirty then fun _ => none else a.outmatch
    dirty := false
    quiet := by
      intro _ i
      cases hd : a.dirty with
      | true => simp
      | false => simpa using (a.quiet hd i).2 }

def addRequest (i o : ℕ) : ISLIPSparse :=
  { a with
    dirty := true
    inReq := Function.update a.inReq i (insertKey o (a.inReq i))
    outReq := Function.update a.outReq o (insertKey i (a.outReq o))
    quiet := by simp }

def removeRequest (i o : ℕ) : ISLIPSparse :=
  { a with
    inReq := Function.update a.inReq i ((a.inReq i).erase o)
    outReq := Function.update a.outReq o ((a.outReq o).erase i)
    inmatch := Function.update a.inmatch i none
    outmatch := Function.update a.outmatch o none
    quiet := by
      intro hd j
      by_cases hj : j = i
      · subst hj
        simp [(a.quiet hd j).1]
      · simpa [hj] using a.quiet hd j }

def outputAssigned (i : ℕ) : Option ℕ := a.inmatch i

/-- Grant phase: the input that output `o` grants. -/
def grants (o : ℕ) : Option ℕ :=
  if a.outReq o = [] ∨ a.outmatch o ≠ none then none
  else (scan (a.gptrs o) (a.outReq o)).find? fun i => a.inmatch i = none

/-- Accept phase: the granting output that input `i` accepts. -/
def accepts (i : ℕ) : Option ℕ :=
  if a.inReq i = [] then none
  else (scan (a.aptrs i) (a.inReq i)).find? fun o => a.grants o = some i

/-- The input that output `o` is matched to in this round. -/
def accepted (o : ℕ) : Option ℕ :=
  (a.grants o).filter fun i => a.accepts i = some o

def allocate : ISLIPSparse :=
  { a with
    inmatch := fun i => (a.accepts i).or (a.inmatch i)
    outmatch := fun o => (a.accepted o).or (a.outmatch o)
    gptrs := fun o =>
      match a.accepted o with
      | some i => (i + 1) % a.inputs
      | none => a.gptrs o
    aptrs := fun i =>
      match a.accepts i with
      | some o => (o + 1) % a.outputs
      | none => a.aptrs i
    quiet := by
      intro hd i
      obtain ⟨hreq, hmatch⟩ := a.quiet hd i
      exact ⟨hreq, by simp [accepts, hreq, hmatch]⟩ }

end ISLIPSparse

end EnocGem5.Noc
