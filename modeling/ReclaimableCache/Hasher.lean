/-!
# Hashers

A hasher decides in which shard a key is stored and in which order a shard lists its entries. Any
digest and any order will do: `Hasher` says only that listing a shard loses and adds nothing.
The standard hasher folds the 64-bit words of a key into one word and lists entries as they came.
-/

namespace ReclaimableCache

/-- The identity of a slot: the number of slots made before it. -/
abbrev SlotId := Nat

/-- The digest of a key, and the order in which a shard lists its entries after a number of
    edits. -/
structure Hasher (K : Type) where
  digest : K → UInt64
  arrange : Nat → List (K × SlotId) → List (K × SlotId)
  arrange_perm : ∀ edits entries, (arrange edits entries).Perm entries

/-- Keys that consist of 64-bit words. -/
class WordKey (K : Type) where
  words : K → List UInt64

namespace WordKey

/-- The odd factor that spreads each word over the whole digest. -/
def spread : UInt64 := 0xf1357aea2e62a9c5

/-- How far the digest is turned at the end, so that its best bits come low. -/
def turn : UInt64 := 26

/-- Turns a word left by `n` bits. -/
def rotateLeft (w n : UInt64) : UInt64 :=
  (w <<< n) ||| (w >>> (64 - n))

/-- Folds words into one: add, multiply, and turn once at the end. -/
def fold (words : List UInt64) : UInt64 :=
  rotateLeft (words.foldl (fun h w => (h + w) * spread) 0) turn

instance : WordKey UInt64 := ⟨fun k => [k]⟩

instance : WordKey (UInt32 × UInt32) := ⟨fun k => [k.1.toUInt64, k.2.toUInt64]⟩

instance : WordKey String := ⟨fun k => k.toList.map fun c => c.val.toUInt64⟩

instance {K : Type} [WordKey K] : WordKey (Option K) :=
  ⟨fun
    | none => [0]
    | some k => 1 :: words k⟩

end WordKey

/-- Folds the words of a key; a shard lists its entries in the order in which they came. -/
def Hasher.standard {K : Type} [WordKey K] : Hasher K where
  digest k := WordKey.fold (WordKey.words k)
  arrange _ entries := entries
  arrange_perm _ _ := .refl _

end ReclaimableCache
