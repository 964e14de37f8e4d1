import ValueCheck.Value.Basic

/-! Whether a value unfolds to a finite tree: no container on the way down comes
again, and every value met is admitted. A container whose content has passed is
finished and not entered a second time, so sharing costs nothing. -/

namespace ValueCheck.Value

/-- The finished containers after a walk that passed. The path holds the
containers being walked; as none is entered twice on one path, a budget above
the number of containers never runs out. -/
def walk (w : World) (admits : Value → Bool) :
    Nat → List CellId → List CellId → Value → Option (List CellId)
  | budget, path, done, .container id =>
    if admits (.container id) then
      if done.contains id then some done
      else if path.contains id then none
      else
        match budget with
        | 0 => none
        | n + 1 =>
          ((w.cell id).children.foldlM (walk w admits n (id :: path)) done).map (id :: ·)
    else none
  | _, _, done, v => if admits v then some done else none

def unfolds (w : World) (admits : Value → Bool) (v : Value) : Bool :=
  (walk w admits (w.cells.size + 1) [] [] v).isSome

def isCircular (w : World) (v : Value) : Bool := !unfolds w (fun _ => true) v

def isJsonNode (w : World) : Value → Bool
  | null | bool _ | str _ => true
  | number n => n.isFinite
  | v => v.isArray w || v.isPlainObject w

def isJsonable (w : World) (v : Value) : Bool := unfolds w (isJsonNode w) v

end ValueCheck.Value
