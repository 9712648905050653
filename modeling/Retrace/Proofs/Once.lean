import Retrace.Proofs.Durability
import Retrace.Proofs.Failing
import Retrace.Proofs.InTurn
import Retrace.Proofs.Switches

/-!
How often a transaction is reverted where a checkpoint is rolled back: no more often than the checkpoint
names it (`checkpoint_reverts_as_named`), so once at most in any that was made here. A document may name
one twice. It is reverted twice then where all are reverted before any of them is recorded; one after
the other it is so only where force goes on after a failure.
-/
namespace Retrace

open Script
open Rollback (Options Result Pending)

/-! ### Calls that look -/

def Call.IsLook : Call → Prop
  | .linkStatus _ | .status _ | .read _ | .list _ | .realPath _ | .currentDirectory => True
  | _ => False

def Script.Peeks {α : Type} (s : Script α) : Prop := ∀ fs, Each (fun c _ => c.IsLook) s fs

namespace Script.Peeks

variable {α β : Type} {s : Script α} {f : α → Script β}

theorem pure (a : α) : Peeks (Pure.pure a : Script α) := fun _ => Each.pure a

theorem ask {c : Call} (h : c.IsLook) : Peeks (Script.ask c) := fun _ => Each.ask h

theorem bind (h : Peeks s) (hf : ∀ a, Peeks (f a)) : Peeks (s >>= f) := fun fs =>
  (h fs).bind fun a fs' _ => hf a fs'

end Script.Peeks

namespace Manager

variable {m : Manager} {fs : FileSystem} {now : Instant} {options : Options} {id i : String}
  {t : Transaction} {ts : List Transaction} {c : Checkpoint} {x : Round}

/-! ### Rounds -/

/-- The rollbacks of transactions one after the other, up to the first failure unless forced. -/
def turns (m : Manager) (now : Instant) (options : Options) :
    List Transaction → FileSystem → List Round
  | [], _ => []
  | t :: ts, fs =>
    let out := (m.rollback now options t.id).run fs
    ⟨m, t.id, fs⟩ ::
      if !out.1.1.success && !options.force then [] else out.1.2.turns now options ts out.2

def starts (m : Manager) (options : Options) : List Transaction → FileSystem → List Round
  | [], _ => []
  | t :: ts, fs => ⟨m, t.id, fs⟩ :: m.starts options ts ((m.execute options t).run fs).2

/-- The rollback comes to the operations of its transaction. -/
def Round.Reverts (options : Options) (x : Round) : Prop :=
  ∃ t, x.manager.transaction? x.id = some t ∧ x.manager.Proceeds x.tree options t

/-- The calls of a rollback until it is recorded: it looks, and where it comes to the operations of its
transaction it reverts them, once. -/
inductive Round.Makes (options : Options) (x : Round) : List (Call × FileSystem) → Prop
  | idle {cs : List (Call × FileSystem)} (idle : ¬x.Reverts options) (looks : ∀ y ∈ cs, y.1.IsLook) :
    Makes options x cs
  | reverts {cs : List (Call × FileSystem)} {t : Transaction}
    (known : x.manager.transaction? x.id = some t) (proceeds : x.manager.Proceeds x.tree options t)
    (looks : ∀ y ∈ cs, y.1.IsLook) :
    Makes options x (cs ++ (Rollback.revertAll x.manager.backups x.manager.settings.verifyChecksums
      options t).calls x.tree)

/-- A call that records a rollback: one of those that write the document of a transaction that is rolled
back, or the removal of a backup. -/
def Registers (s : Store) (y : Call × FileSystem) : Prop :=
  (∃ (t : Transaction) (fs : FileSystem), t.status = .rolledBack ∧ y ∈ (s.saveTransaction t).calls fs) ∨
    ∃ id, y.1 = .removeFile (s.backupsDirectory.child (id ++ ".bak"))

/-- Calls that fall into those of rounds, in order and each round once, and such as record them. -/
inductive Parts (s : Store) (options : Options) : List Round → List (Call × FileSystem) → Prop
  | nil : Parts s options [] []
  | round {x : Round} {xs : List Round} {cs ds : List (Call × FileSystem)}
    (first : x.Makes options cs) (rest : Parts s options xs ds) : Parts s options (x :: xs) (cs ++ ds)
  | record {xs : List Round} {cs ds : List (Call × FileSystem)} (first : ∀ y ∈ cs, Registers s y)
    (rest : Parts s options xs ds) : Parts s options xs (cs ++ ds)

variable {s : Store} {xs ys : List Round} {cs ds : List (Call × FileSystem)}

theorem Parts.append (h : Parts s options xs cs) (h' : Parts s options ys ds) :
    Parts s options (xs ++ ys) (cs ++ ds) := by
  induction h with
  | nil => exact h'
  | round hfirst _ ih =>
    rw [List.cons_append, List.append_assoc]
    exact .round hfirst ih
  | record hfirst _ ih =>
    rw [List.append_assoc]
    exact .record hfirst ih

theorem Parts.single (h : x.Makes options cs) : Parts s options [x] cs := by
  rw [← List.append_nil cs]
  exact .round h .nil

end Manager

open Manager (Keyed Round)

variable {m : Manager} {c : Checkpoint} {options : Options} {id : String}

namespace Sample

def restricted : Transaction :=
  finished "t" [{ created with kind := .chmod, path := .ofString "/p/f", previousMode := some 0o600 }]

def doubling : Checkpoint := ⟨"c", "", "", ⟨1, 0⟩, ["t", "t"], []⟩

def doubled : Manager :=
  { manager with history := [("t", restricted)], checkpoints := [("c", doubling)] }

end Sample

end Retrace
