/-
Cipher block chaining.

A block is mixed with the enciphered block before it and then enciphered, so a block is
deciphered from itself and the one before it alone.  The cipher is a function and its inverse,
and the mixing is its own inverse when its second argument stays the same, as exclusive or is.
-/

namespace Cbc

variable {β : Type} (mix : β → β → β)

/-- Each block is mixed with the one that was enciphered before it, and enciphered. -/
def encrypt (encipher : β → β) : (previous : β) → List β → List β
  | _, [] => []
  | previous, block :: rest =>
      encipher (mix block previous) :: encrypt encipher (encipher (mix block previous)) rest

def decrypt (decipher : β → β) : (previous : β) → List β → List β
  | _, [] => []
  | previous, block :: rest => mix (decipher block) previous :: decrypt decipher block rest

variable {mix} {encipher decipher : β → β}

theorem length_encrypt (previous : β) (blocks : List β) :
    (encrypt mix encipher previous blocks).length = blocks.length := by
  induction blocks generalizing previous with
  | nil => rfl
  | cons block rest ih => exact congrArg Nat.succ (ih _)

/-- Decrypting undoes encrypting. -/
theorem decrypt_encrypt (hmix : ∀ a b, mix (mix a b) b = a) (hinverse : ∀ a, decipher (encipher a) = a)
    (previous : β) (blocks : List β) :
    decrypt mix decipher previous (encrypt mix encipher previous blocks) = blocks := by
  induction blocks generalizing previous with
  | nil => rfl
  | cons block rest ih =>
      show mix (decipher (encipher (mix block previous))) previous :: _ = _
      rw [hinverse, hmix, ih]

end Cbc
