import Mathlib.Data.List.Basic
import Mathlib.Data.Set.Basic

/-!
# A file under power cuts

A file is what the last sync made durable and the writes and truncations since. A power cut
keeps the durable content and some of what came after: a first part of the operations, the last
write of them cut at any byte, and of the truncations among them any choice.
-/

namespace Gptps.CrashFile

variable {α : Type*}

/-- An operation on a file. -/
inductive Op (α : Type*) where
  /-- Bytes written from an offset on. -/
  | write (off : ℕ) (b : List α)
  /-- The file cut to a length. -/
  | trunc (n : ℕ)

/-- What an operation does to a content. -/
def Op.apply : Op α → List α → List α
  | .write off b, c => c.take off ++ b ++ c.drop (off + b.length)
  | .trunc n, c => c.take n

/-- A file. -/
structure File (α : Type*) where
  /-- The content at the last sync. -/
  kept : List α
  /-- The operations since, oldest first. -/
  ops : List (Op α)

/-- The content of a file while the machine runs. -/
def File.content (f : File α) : List α := f.ops.foldl (fun c op => op.apply c) f.kept

/-- Bytes appended at the end. -/
def File.append (f : File α) (b : List α) : File α :=
  { f with ops := f.ops ++ [.write f.content.length b] }

/-- The file cut to its first `n` bytes. -/
def File.cut (f : File α) (n : ℕ) : File α := { f with ops := f.ops ++ [.trunc n] }

/-- A sync makes the content durable. -/
def File.sync (f : File α) : File α := ⟨f.content, []⟩

/-- A sync that others wrote during makes durable the `n` operations from before it. A power cut
keeps what it keeps of the others. -/
def File.syncFirst (f : File α) (n : ℕ) : File α :=
  ⟨(⟨f.kept, f.ops.take n⟩ : File α).content, f.ops.drop n⟩

/-- What a power cut keeps of one operation. -/
inductive Keep where
  /-- All of it. -/
  | all
  /-- The first bytes of a write, and nothing after it. -/
  | part (k : ℕ)
  /-- A truncation is lost, and what follows it may be kept. -/
  | skip
deriving DecidableEq, Repr

/-- The operations a power cut keeps: those with a choice, up to the first that ends them. -/
def keepOps : List (Op α) → List Keep → List (Op α)
  | .write off b :: ops, .all :: ks => .write off b :: keepOps ops ks
  | .write off b :: _, .part k :: _ => [.write off (b.take k)]
  | .trunc n :: ops, .all :: ks => .trunc n :: keepOps ops ks
  | .trunc _ :: ops, .skip :: ks => keepOps ops ks
  | _, _ => []

/-- The file a power cut leaves. -/
def File.after (f : File α) (ks : List Keep) : File α :=
  ⟨(⟨f.kept, keepOps f.ops ks⟩ : File α).content, []⟩

end Gptps.CrashFile
