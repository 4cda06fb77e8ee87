/-
The AES coder against its reference.

What the hasher and the decryptor do is assumed as their crates document it: a digest is that
of all that has been fed in, and a block is deciphered and mixed with the block before it.
Then the key is the reference key, and decoding is CBC decryption cut to the declared size; so
it undoes encryption under any padding.  The price of a decoding is known before its first
block, and the check of the properties in the header is the check the coder makes again.
-/
import Un7z.Aes
import Un7z.Lib.Cbc
import Un7z.Lib.Priced
import Un7z.Proofs.EntryStreams
import Un7z.Proofs.HeaderGrammar
import Un7z.Proofs.Interruptions
import Un7z.Proofs.Reads
import Un7z.Proofs.WorkBudget

namespace Un7z

open Lz4 (sliceBetween)
open Metered (Returns)

namespace Aes

/-! ### What the crates do -/

theorem length_mix (a b : Block) : (a.val.zipWith (· ^^^ ·) b.val).length = blockBytes := by
  rw [List.length_zipWith, a.property, b.property, Nat.min_self]

/-- Exclusive or, byte by byte. -/
def Block.mix (a b : Block) : Block := ⟨a.val.zipWith (· ^^^ ·) b.val, length_mix a b⟩

theorem zipWith_xor_xor (a : Bytes) : ∀ b : Bytes, a.length = b.length →
    (a.zipWith (· ^^^ ·) b).zipWith (· ^^^ ·) b = a := by
  induction a with
  | nil => exact fun b _ => rfl
  | cons byte a ih =>
      intro b hlength
      cases b with
      | nil => cases hlength
      | cons byte' b =>
          have hbyte : byte ^^^ byte' ^^^ byte' = byte := by
            rw [UInt8.xor_assoc, UInt8.xor_self, UInt8.xor_zero]
          rw [List.zipWith_cons_cons, List.zipWith_cons_cons, hbyte, ih b (Nat.succ.inj hlength)]

theorem Block.mix_mix (a b : Block) : (a.mix b).mix b = a :=
  Subtype.ext (zipWith_xor_xor a.val b.val (a.property.trans b.property.symm))

variable {η δ : Type} {hasher : Hasher η} {decryptor : Decryptor δ} {digest : Bytes → Bytes}
  {decipher : Bytes → Block → Block} {state : Bytes → Block → δ} {limits : Limits}

/-- The hasher digests what has been fed in, to the bytes of a key. -/
structure Hasher.Digests (hasher : Hasher η) (digest : Bytes → Bytes) : Prop where
  finalize : ∀ pieces : List Bytes,
    hasher.finalize (pieces.foldl hasher.update hasher.new) = digest pieces.flatten
  length : ∀ message, (digest message).length = keyBytes

/-- The decryptor chains blocks: its state is the key and the block it has deciphered last. -/
structure Decryptor.Chains (decryptor : Decryptor δ) (decipher : Bytes → Block → Block)
    (state : Bytes → Block → δ) : Prop where
  new : ∀ key (iv : Block), key.length = keyBytes → decryptor.new key iv.val = some (state key iv)
  decryptBlock : ∀ key previous block, decryptor.decryptBlock (state key previous) block
    = ((decipher key block).mix previous, state key block)

/-! ### The properties -/

/-- What the sizes in the first two bytes of the properties are. -/
def saltSize (first second : UInt8) : Nat := ((first >>> 7) &&& 1).toNat + (second >>> 4).toNat
def ivSize (first second : UInt8) : Nat := ((first >>> 6) &&& 1).toNat + (second &&& 0x0f).toNat

/-- The power is direct, or no greater than the limit. -/
def Allowed (limits : Limits) (kdfPower : Nat) : Prop :=
  kdfPower = directKdfPower ∨ kdfPower ≤ limits.maxKdfPower

instance (limits : Limits) (kdfPower : Nat) : Decidable (Allowed limits kdfPower) :=
  inferInstanceAs (Decidable (_ ∨ _))

theorem and_toNat_le (a b : UInt8) : (a &&& b).toNat ≤ b.toNat := by
  rw [UInt8.toNat_and]
  exact Nat.and_le_right

theorem saltSize_le (first second : UInt8) : saltSize first second ≤ 16 := by
  have hbit : ((first >>> 7) &&& 1).toNat ≤ 1 := and_toNat_le _ _
  have hnibble : (second >>> 4).toNat ≤ 15 := by
    rw [UInt8.toNat_shiftRight]
    have := second.toNat_lt
    show second.toNat >>> 4 ≤ 15
    omega
  unfold saltSize
  omega

theorem ivSize_le (first second : UInt8) : ivSize first second ≤ 16 := by
  have hbit : ((first >>> 6) &&& 1).toNat ≤ 1 := and_toNat_le _ _
  have hnibble : (second &&& 0x0f).toNat ≤ 15 := and_toNat_le _ _
  unfold ivSize
  omega

theorem result_orFormat_bind {α β : Type} {value : Option α} {detail : String} {a : α}
    {f : α → Work β} (h : value = some a) : (orFormat value detail >>= f).result = (f a).result :=
  Metered.result_bind_ok (orFormat_eq_ok.mpr h)

/-- The parsed form of a property string. -/
def parsedProperties (first : UInt8) (salt iv : Bytes) : AesProperties :=
  ⟨(first &&& 0x3f).toNat, salt, iv ++ List.replicate (blockBytes - iv.length) 0⟩

theorem sliceBetween_middle {before middle after : Bytes} {start stop : Nat}
    (hstart : start = before.length) (hstop : stop = before.length + middle.length) :
    sliceBetween (before ++ (middle ++ after)) start stop = some middle := by
  subst hstart hstop
  have hle : before.length ≤ before.length + middle.length ∧
      before.length + middle.length ≤ (before ++ (middle ++ after)).length := by
    rw [List.length_append, List.length_append]
    omega
  rw [sliceBetween, if_pos hle, List.drop_left, Nat.add_sub_cancel_left, List.take_left]

/-- Properties that hold a salt and an IV are parsed, up to the power. -/
theorem parseProperties_result {first second : UInt8} {salt iv : Bytes}
    (hsalt : salt.length = saltSize first second) (hiv : iv.length = ivSize first second) :
    (parseProperties (first :: second :: (salt ++ iv)) limits).result
      = if Allowed limits (first &&& 0x3f).toNat then .ok (parsedProperties first salt iv)
        else .error (.limitExceeded .kdfPower (first &&& 0x3f).toNat limits.maxKdfPower) := by
  have hsalt16 := saltSize_le first second
  have hiv16 := ivSize_le first second
  have hlength : (first :: second :: (salt ++ iv)).length = 2 + salt.length + iv.length := by
    rw [List.length_cons, List.length_cons, List.length_append]
    omega
  have hslice : sliceBetween (first :: second :: (salt ++ iv)) 2 (2 + salt.length) = some salt :=
    @sliceBetween_middle [first, second] salt iv _ _ rfl rfl
  have hslice' : sliceBetween (first :: second :: (salt ++ iv)) (2 + salt.length)
      (2 + salt.length + iv.length) = some iv := by
    have hmiddle := @sliceBetween_middle (first :: second :: salt) iv [] (2 + salt.length)
      (2 + salt.length + iv.length) (Nat.add_comm _ _) (congrArg (· + iv.length) (Nat.add_comm _ _))
    rwa [List.append_nil] at hmiddle
  have hsaltSize : checkedAdd 64 ((first >>> 7) &&& 1).toNat (second >>> 4).toNat = some salt.length := by
    rw [hsalt]
    exact checkedAdd_of_lt (Nat.lt_of_le_of_lt hsalt16 (by decide))
  have hivSize : checkedAdd 64 ((first >>> 6) &&& 1).toNat (second &&& 0x0f).toNat = some iv.length := by
    rw [hiv]
    exact checkedAdd_of_lt (Nat.lt_of_le_of_lt hiv16 (by decide))
  rw [parseProperties, result_orFormat_bind (List.getElem?_cons_zero),
    result_orFormat_bind (show (first :: second :: (salt ++ iv))[1]? = some second from rfl),
    result_orFormat_bind hsaltSize, result_orFormat_bind hivSize]
  dsimp only
  rw [result_orFormat_bind (checkedAdd_of_lt (by omega)), result_orFormat_bind (checkedAdd_of_lt (by omega)),
    if_neg (not_not_intro hlength.symm), result_orFormat_bind hslice, result_orFormat_bind hslice',
    if_neg (show ¬ iv.length > blockBytes by rw [hiv]; exact Nat.not_lt.mpr hiv16)]
  by_cases hallowed : Allowed limits (first &&& 0x3f).toNat
  · rw [if_pos hallowed, if_neg]
    · rfl
    · rintro ⟨hdirect, hpower⟩
      exact hallowed.elim hdirect (Nat.not_le.mpr hpower)
  · rw [if_neg hallowed, if_pos]
    · rfl
    · exact ⟨fun h => hallowed (Or.inl h), Nat.not_le.mp fun h => hallowed (Or.inr h)⟩

theorem eq_cons_cons {properties : Bytes} {first second : UInt8} (hfirst : properties[0]? = some first)
    (hsecond : properties[1]? = some second) : ∃ rest, properties = first :: second :: rest := by
  cases properties with
  | nil => cases hfirst
  | cons head tail =>
      cases tail with
      | nil => cases hsecond
      | cons next rest =>
          cases hfirst
          cases hsecond
          exact ⟨rest, rfl⟩

theorem parseProperties_eq_ok {properties : Bytes} {parsed : AesProperties} :
    (parseProperties properties limits).result = .ok parsed ↔
      ∃ first second salt iv, properties = first :: second :: (salt ++ iv) ∧
        salt.length = saltSize first second ∧ iv.length = ivSize first second ∧
        Allowed limits (first &&& 0x3f).toNat ∧ parsedProperties first salt iv = parsed := by
  constructor
  · intro hrun
    obtain ⟨first, hfirst, h⟩ := Metered.bind_eq_ok.mp hrun
    obtain ⟨second, hsecond, h⟩ := Metered.bind_eq_ok.mp h
    obtain ⟨_, hsaltSize, h⟩ := Metered.bind_eq_ok.mp h
    obtain ⟨_, hivSize, h⟩ := Metered.bind_eq_ok.mp h
    obtain ⟨_, hsaltEnd, h⟩ := Metered.bind_eq_ok.mp h
    obtain ⟨_, hivEnd, h⟩ := Metered.bind_eq_ok.mp h
    rw [orFormat_eq_ok] at hfirst hsecond hsaltSize hivSize hsaltEnd hivEnd
    obtain ⟨-, rfl⟩ := checkedAdd_eq_some.mp hsaltSize
    obtain ⟨-, rfl⟩ := checkedAdd_eq_some.mp hivSize
    obtain ⟨-, rfl⟩ := checkedAdd_eq_some.mp hsaltEnd
    obtain ⟨-, rfl⟩ := checkedAdd_eq_some.mp hivEnd
    obtain ⟨hlength, -⟩ := refuseFormat_eq_ok.mp h
    obtain ⟨rest, rfl⟩ := eq_cons_cons hfirst hsecond
    have hrest : rest.length = saltSize first second + ivSize first second := by
      have hsum : 2 + saltSize first second + ivSize first second = rest.length + 1 + 1 :=
        Decidable.not_not.mp hlength
      omega
    have hsalt : (rest.take (saltSize first second)).length = saltSize first second := by
      rw [List.length_take]
      omega
    have hiv : (rest.drop (saltSize first second)).length = ivSize first second := by
      rw [List.length_drop]
      omega
    rw [← List.take_append_drop (saltSize first second) rest, parseProperties_result hsalt hiv] at hrun
    by_cases hallowed : Allowed limits (first &&& 0x3f).toNat
    · rw [if_pos hallowed] at hrun
      exact ⟨first, second, _, _, by rw [List.take_append_drop], hsalt, hiv, hallowed, Except.ok.inj hrun⟩
    · rw [if_neg hallowed] at hrun
      cases hrun
  · rintro ⟨first, second, salt, iv, rfl, hsalt, hiv, hallowed, rfl⟩
    rw [parseProperties_result hsalt hiv, if_pos hallowed]

/-- The limit on the power, which a direct key is not held to. -/
theorem refusePower_eq_ok {kdfPower : Nat} : (if kdfPower ≠ 0x3f ∧ kdfPower > limits.maxKdfPower then
    Metered.fail (.limitExceeded .kdfPower kdfPower limits.maxKdfPower) else pure () : Work Unit).result
      = .ok () ↔ Allowed limits kdfPower := by
  rw [refuse_eq_ok, Decidable.not_and_iff_or_not, Decidable.not_not, Nat.not_lt]
  exact and_iff_left rfl

/-- What the check of the header takes for properties. -/
theorem checkAesProperties_eq_ok {properties : Bytes} (hsmall : properties.length < 2 ^ 64) :
    (checkAesProperties properties limits).result = .ok () ↔
      ∃ first second rest, properties = first :: second :: rest ∧
        rest.length = saltSize first second + ivSize first second ∧
        Allowed limits (first &&& 0x3f).toNat := by
  rw [checkAesProperties, Metered.bind_eq_ok]
  constructor
  · rintro ⟨⟨kdfPower, reader⟩, hread, h⟩
    obtain ⟨first, reader₁, hfirst, hread⟩ := Cursor.bind_eq_ok.mp hread
    obtain ⟨second, reader₂, hsecond, hread⟩ := Cursor.bind_eq_ok.mp hread
    obtain ⟨skipped, reader₃, hskipped, hread⟩ := Cursor.bind_eq_ok.mp hread
    obtain ⟨⟨⟩, hfinish, h⟩ := Metered.bind_eq_ok.mp h
    cases hread
    have hproperties : properties = first :: reader₁.remaining := Raw.readU8_eq_ok hfirst
    have hrest : reader₁.remaining = second :: reader₂.remaining := Raw.readU8_eq_ok hsecond
    obtain ⟨-, hle, -, hbytes, hposition⟩ := readBytes_eq_ok.mp hskipped
    have hend := congrArg List.length (finish_eq_ok.mp hfinish)
    rw [BoundedReader.length_remaining, hbytes, hposition, List.length_nil] at hend
    refine ⟨first, second, reader₂.remaining, by rw [hproperties, hrest], ?_, refusePower_eq_ok.mp h⟩
    rw [BoundedReader.length_remaining]
    show _ = _ + _ + (_ + _)
    omega
  · rintro ⟨first, second, rest, rfl, hrest, hallowed⟩
    have hskip := decodes_readBytes rest
    rw [hrest] at hskip
    have hdecodes := (decodes_readU8 first).bind (f := fun first => do
        let second ← readU8
        let _ ← readBytes (saltSize first second + ivSize first second)
        pure (first &&& 0x3f).toNat)
      ((decodes_readU8 second).bind (hskip.bind (Cursor.Decodes.pure (first &&& 0x3f).toNat)))
    have hall : (BoundedReader.new (first :: second :: rest)).remaining
        = [first] ++ ([second] ++ (rest ++ [])) ++ [] := by
      rw [List.append_nil, List.append_nil]
      rfl
    obtain ⟨reader, hread, -, hremaining⟩ := hdecodes _ [] hsmall hall
    exact ⟨_, hread, Metered.bind_eq_ok.mpr
      ⟨(), finish_eq_ok.mpr hremaining, refusePower_eq_ok.mpr hallowed⟩⟩

/--
**The header check and the coder take the same properties.**

What `validate_coder_properties` accepts for an AES coder, `parse_properties` accepts under the
same limits, and nothing else: a header that was accepted has no coder that fails on its properties.
-/
theorem parseProperties_agrees {properties : Bytes} (hsmall : properties.length < 2 ^ 64) :
    (∃ dictionary, (validateCoderProperties methodAes properties limits).result = .ok dictionary) ↔
      ∃ parsed, (parseProperties properties limits).result = .ok parsed := by
  have hvalidate : (∃ dictionary,
      (validateCoderProperties methodAes properties limits).result = .ok dictionary) ↔
        (checkAesProperties properties limits).result = .ok () := by
    have hdictionary : declaredDictionary methodAes properties = .ok none := by
      rw [declaredDictionary, if_neg (by decide), if_neg (by decide), if_neg (by decide),
        if_neg (by decide)]
    rw [validateCoderProperties, hdictionary]
    constructor
    · rintro ⟨dictionary, h⟩
      obtain ⟨declared, hdeclared, h⟩ := Metered.bind_eq_ok.mp h
      obtain rfl := Except.ok.inj hdeclared
      obtain ⟨⟨⟩, hcheck, -⟩ := Metered.bind_eq_ok.mp h
      exact hcheck
    · intro h
      exact ⟨none, Metered.bind_eq_ok.mpr ⟨none, rfl, Metered.bind_eq_ok.mpr ⟨(), h, rfl⟩⟩⟩
  rw [hvalidate, checkAesProperties_eq_ok hsmall]
  constructor
  · rintro ⟨first, second, rest, rfl, hrest, hallowed⟩
    refine ⟨_, parseProperties_eq_ok.mpr ⟨first, second, rest.take (saltSize first second),
      rest.drop (saltSize first second), by rw [List.take_append_drop], ?_, ?_, hallowed, rfl⟩⟩
    · rw [List.length_take]
      omega
    · rw [List.length_drop]
      omega
  · rintro ⟨parsed, h⟩
    obtain ⟨first, second, salt, iv, rfl, hsalt, hiv, hallowed, -⟩ := parseProperties_eq_ok.mp h
    exact ⟨first, second, _, rfl, by rw [List.length_append, hsalt, hiv], hallowed⟩

/-- A direct key, without a salt or an IV. -/
theorem parseProperties_agrees_direct :
    (∃ dictionary, (validateCoderProperties methodAes [0x3f, 0] {}).result = .ok dictionary) ↔
      ∃ parsed, (parseProperties [0x3f, 0] {}).result = .ok parsed :=
  parseProperties_agrees (by decide)

/-! ### The key -/

theorem returns_orFormat {α : Type} {value : Option α} {detail : String} {a : α} (h : value = some a) :
    Returns (orFormat value detail) a 0 :=
  .of_free (trace_orFormat _ _) (orFormat_eq_ok.mpr h)

theorem returns_checkLimit {value maximum : Nat} {limit : LimitKind} (h : value ≤ maximum) :
    Returns (checkLimit value maximum limit) () 0 :=
  .of_free (trace_checkLimit _ _ _) (checkLimit_of_le h _)

theorem returns_checkpoint (units : Nat) : Returns (checkpoint units) () (1, units) := ⟨rfl, rfl⟩

/-- The sources that have been copied into a key, which is filled up with zeros. -/
def filled (sources : Bytes) : Bytes := (sources ++ List.replicate keyBytes 0).take keyBytes

theorem length_filled (sources : Bytes) : (filled sources).length = keyBytes := by
  rw [filled, List.length_take, List.length_append, List.length_replicate]
  omega

/-- A key with a copy behind what it held. -/
theorem take_copied {sources material : Bytes} (hroom : sources.length < keyBytes) :
    sources ++ material.take (min (keyBytes - sources.length) material.length)
        ++ (filled sources).drop (min keyBytes (sources ++ material).length)
      = filled (sources ++ material) := by
  have hzeros : (filled sources).drop (min keyBytes (sources ++ material).length)
      = List.replicate (keyBytes - (sources ++ material).length) 0 := by
    rw [filled, List.take_append, List.take_of_length_le (Nat.le_of_lt hroom), List.take_replicate,
      List.drop_append, List.drop_of_length_le, List.nil_append, List.drop_replicate]
    · congr 1
      rw [List.length_append]
      omega
    · rw [List.length_append]
      omega
  have hcopied : sources ++ material.take (min (keyBytes - sources.length) material.length)
      = (sources ++ material).take keyBytes := by
    rw [List.take_append, List.take_of_length_le (Nat.le_of_lt hroom),
      ← List.take_eq_take_min]
  rw [hzeros, hcopied, filled, @List.take_append _ (sources ++ material), List.take_replicate]
  congr 2
  omega

/-- The next source is copied behind the others, as far as there is room. -/
theorem returns_copyKeyMaterial (sources material : Bytes) :
    Returns (copyKeyMaterial (filled sources) material (min keyBytes sources.length))
      (filled (sources ++ material), min keyBytes (sources ++ material).length) 0 := by
  have hlength : (filled sources).length = keyBytes := length_filled sources
  have hboth : (sources ++ material).length = sources.length + material.length := List.length_append
  unfold copyKeyMaterial
  rw [hlength]
  by_cases hdone : min keyBytes sources.length ≥ keyBytes ∨ material.isEmpty = true
  · rw [if_pos hdone]
    have hsame : filled sources = filled (sources ++ material) ∧
        min keyBytes sources.length = min keyBytes (sources ++ material).length := by
      rcases hdone with hfull | hempty
      · have hle : keyBytes ≤ sources.length := Nat.le_trans hfull (Nat.min_le_right _ _)
        refine ⟨?_, by omega⟩
        rw [filled, filled, List.append_assoc, List.take_append_of_le_length hle,
          List.take_append_of_le_length hle]
      · rw [List.isEmpty_iff.mp hempty, List.append_nil]
        exact ⟨rfl, rfl⟩
    rw [hsame.1, hsame.2]
    exact Returns.pure _
  · rw [if_neg hdone]
    have hroom : sources.length < keyBytes := by
      refine Nat.lt_of_not_le fun hle => hdone (Or.inl ?_)
      exact Nat.le_of_eq (Nat.min_eq_left hle).symm
    have hwritten : (filled sources).take sources.length = sources := by
      rw [filled, List.take_take, Nat.min_eq_left (Nat.le_of_lt hroom), List.take_left]
    have hstop : sources.length + min (keyBytes - sources.length) material.length
        = min keyBytes (sources ++ material).length := by
      rw [hboth]
      omega
    have hadd : sources.length + min (keyBytes - sources.length) material.length < 2 ^ 64 := by
      have : keyBytes < 2 ^ 64 := by decide
      omega
    rw [Nat.min_eq_right (Nat.le_of_lt hroom)]
    refine (returns_orFormat (checkedSub_of_le (Nat.le_of_lt hroom))).bind_free ?_
    refine (returns_orFormat (checkedAdd_of_lt hadd)).bind_free ?_
    rw [if_neg (show ¬ sources.length + min (keyBytes - sources.length) material.length > keyBytes by omega),
      hwritten, hstop, take_copied hroom]
    exact Returns.pure _

/-- What is hashed: the salt, the password and a counter, for each counter. -/
def message (salt password : Bytes) (rounds : Nat) : Bytes :=
  ((List.range rounds).flatMap fun counter => [salt, password, counterBytes counter]).flatten

/-- The key of a password. -/
def keyOf (digest : Bytes → Bytes) (properties : AesProperties) (password : Bytes) : Bytes :=
  if properties.kdfPower = directKdfPower then filled (properties.salt ++ password)
  else digest (message properties.salt password (2 ^ properties.kdfPower))

theorem length_keyOf (hhash : hasher.Digests digest) (properties : AesProperties) (password : Bytes) :
    (keyOf digest properties password).length = keyBytes := by
  unfold keyOf
  split
  · exact length_filled _
  · exact hhash.length _

/-- What a key is charged: a check for each round, and the bytes that are hashed. -/
def keyCharge (properties : AesProperties) (password : Bytes) : Charge :=
  if properties.kdfPower = directKdfPower then (1, min keyBytes (properties.salt ++ password).length)
  else (2 ^ properties.kdfPower,
    2 ^ properties.kdfPower * (properties.salt.length + password.length + 8))

theorem returns_hashRounds (salt password : Bytes) (roundWork rounds : Nat) : ∀ counter (hash : η),
    Returns (hashRounds hasher salt password roundWork rounds counter hash)
      (((List.range' counter rounds).flatMap fun counter => [salt, password, counterBytes counter]).foldl
        hasher.update hash) (rounds, rounds * roundWork) := by
  induction rounds with
  | zero =>
      intro counter hash
      rw [Nat.zero_mul]
      exact Returns.pure hash
  | succ rounds ih =>
      intro counter hash
      have hprice : ((rounds + 1, (rounds + 1) * roundWork) : Charge)
          = (1, roundWork) + (rounds, rounds * roundWork) :=
        Prod.ext (Nat.add_comm _ _) (by rw [Nat.succ_mul]; exact Nat.add_comm _ _)
      rw [hprice, List.range'_succ, List.flatMap_cons, List.foldl_append]
      exact (returns_checkpoint roundWork).bind (ih (counter + 1) _)

/-- **The key is derived** at a price that is known beforehand. -/
theorem returns_deriveKey (hhash : hasher.Digests digest) {properties : AesProperties} {password : Bytes}
    (hpower : properties.kdfPower < 64) (hsmall : properties.salt.length + password.length + 8 < 2 ^ 64) :
    Returns (deriveKey hasher properties password) (keyOf digest properties password)
      (keyCharge properties password) := by
  unfold deriveKey keyOf keyCharge
  by_cases hdirect : properties.kdfPower = directKdfPower
  · rw [if_pos hdirect, if_pos hdirect, if_pos hdirect]
    refine (returns_copyKeyMaterial [] properties.salt).bind_free ?_
    refine (returns_copyKeyMaterial properties.salt password).bind_free ?_
    exact (returns_checkpoint _).bind_pure (Returns.pure _)
  · rw [if_neg hdirect, if_neg hdirect, if_neg hdirect]
    have hrounds : checkedShl 64 1 properties.kdfPower = some (2 ^ properties.kdfPower) := by
      rw [checkedShl_of_lt hpower, Nat.one_shiftLeft,
        Nat.mod_eq_of_lt (Nat.pow_lt_pow_right (by decide) hpower)]
    refine (returns_orFormat hrounds).bind_free ?_
    refine (returns_orFormat (checkedAdd_of_lt (by omega))).bind_free ?_
    refine (returns_orFormat (checkedAdd_of_lt hsmall)).bind_free ?_
    refine (returns_hashRounds properties.salt password _ _ 0 hasher.new).bind_pure ?_
    rw [hhash.finalize, ← List.range_eq_range']
    exact Returns.pure _

/-! ### The blocks -/

def joined (blocks : List Block) : Bytes := blocks.flatMap Subtype.val

theorem length_joined (blocks : List Block) : (joined blocks).length = blocks.length * blockBytes := by
  induction blocks with
  | nil => rfl
  | cons block rest ih =>
      rw [joined, List.flatMap_cons, List.length_append, block.property, List.length_cons, Nat.succ_mul,
        ← ih]
      exact Nat.add_comm _ _

theorem chunksFrom_joined (blocks : List Block) : ∀ fuel, blocks.length ≤ fuel →
    chunksFrom blockBytes fuel (joined blocks) = blocks.map Subtype.val := by
  induction blocks with
  | nil =>
      intro fuel _
      cases fuel <;> rfl
  | cons block rest ih =>
      intro fuel hfuel
      rw [List.length_cons] at hfuel
      obtain ⟨fuel, rfl⟩ : ∃ more, fuel = more + 1 := ⟨fuel - 1, by omega⟩
      have hcons : joined (block :: rest) = block.val ++ joined rest := List.flatMap_cons
      obtain ⟨first, others, hblock⟩ : ∃ first others, block.val = first :: others :=
        List.exists_cons_of_length_eq_add_one block.property
      have htake : (block.val ++ joined rest).take blockBytes = block.val := List.take_left' block.property
      have hdrop : (block.val ++ joined rest).drop blockBytes = joined rest := List.drop_left' block.property
      rw [hcons, hblock, List.cons_append, chunksFrom, ← List.cons_append, ← hblock, htake, hdrop,
        ih fuel (Nat.le_of_succ_le_succ hfuel), List.map_cons]

theorem chunks_joined (blocks : List Block) :
    chunks blockBytes (joined blocks) = blocks.map Subtype.val := by
  refine chunksFrom_joined blocks _ ?_
  rw [length_joined]
  exact Nat.le_mul_of_pos_right _ (by decide)

/-- Aligned bytes are blocks. -/
theorem exists_joined (count : Nat) : ∀ bytes : Bytes, bytes.length = count * blockBytes →
    ∃ blocks, bytes = joined blocks := by
  induction count with
  | zero =>
      intro bytes hlength
      rw [Nat.zero_mul] at hlength
      exact ⟨[], List.length_eq_zero_iff.mp hlength⟩
  | succ count ih =>
      intro bytes hlength
      rw [Nat.succ_mul] at hlength
      have htake : (bytes.take blockBytes).length = blockBytes := by
        rw [List.length_take]
        omega
      obtain ⟨blocks, hblocks⟩ := ih (bytes.drop blockBytes) (by rw [List.length_drop]; omega)
      refine ⟨⟨_, htake⟩ :: blocks, ?_⟩
      rw [joined, List.flatMap_cons, ← joined, ← hblocks, List.take_append_drop]

theorem decryptChunks_cons (block : Block) (rest : List Bytes) (current : δ) :
    decryptChunks decryptor (block.val :: rest) current = (checkpoint blockBytes >>= fun _ =>
      decryptChunks decryptor rest (decryptor.decryptBlock current block).2 >>= fun decrypted =>
        pure ((decryptor.decryptBlock current block).1.val ++ decrypted)) := by
  rw [decryptChunks, dif_pos block.property]

/-- The loop over the chunks decrypts the chain, at sixteen units a block. -/
theorem returns_decryptChunks (hchain : decryptor.Chains decipher state) (key : Bytes)
    (blocks : List Block) : ∀ previous,
      Returns (decryptChunks decryptor (blocks.map Subtype.val) (state key previous))
        (joined (Cbc.decrypt Block.mix (decipher key) previous blocks))
        (blocks.length, blocks.length * blockBytes) := by
  induction blocks with
  | nil =>
      intro previous
      exact Returns.pure []
  | cons block rest ih =>
      intro previous
      have hprice : (((block :: rest).length, (block :: rest).length * blockBytes) : Charge)
          = (1, blockBytes) + (rest.length, rest.length * blockBytes) :=
        Prod.ext (Nat.add_comm _ _) (by rw [List.length_cons, Nat.succ_mul]; exact Nat.add_comm _ _)
      rw [hprice, List.map_cons, decryptChunks_cons, hchain.decryptBlock]
      refine (returns_checkpoint blockBytes).bind ?_
      exact (ih block).bind_pure (Returns.pure _)

/-! ### Decoding -/

theorem trace_parseProperties (properties : Bytes) : (parseProperties properties limits).trace = [] := by
  unfold parseProperties
  refine Metered.trace_bind_of_free (trace_orFormat _ _) fun first => ?_
  refine Metered.trace_bind_of_free (trace_orFormat _ _) fun second => ?_
  refine Metered.trace_bind_of_free (trace_orFormat _ _) fun saltSize => ?_
  refine Metered.trace_bind_of_free (trace_orFormat _ _) fun ivSize => ?_
  refine Metered.trace_bind_of_free (trace_orFormat _ _) fun saltEnd => ?_
  refine Metered.trace_bind_of_free (trace_orFormat _ _) fun ivEnd => ?_
  split
  · rfl
  refine Metered.trace_bind_of_free (trace_orFormat _ _) fun salt => ?_
  refine Metered.trace_bind_of_free (trace_orFormat _ _) fun sourceIv => ?_
  split
  · rfl
  dsimp only
  split
  · rfl
  · rfl

/-- What parsing guarantees of its result. -/
theorem parsed_bounds {properties : Bytes} {parsed : AesProperties}
    (h : (parseProperties properties limits).result = .ok parsed) :
    parsed.kdfPower < 64 ∧ parsed.salt.length ≤ 16 ∧ parsed.iv.length = blockBytes := by
  obtain ⟨first, second, salt, iv, -, hsalt, hiv, -, rfl⟩ := parseProperties_eq_ok.mp h
  refine ⟨?_, hsalt ▸ saltSize_le _ _, ?_⟩
  · exact Nat.lt_succ_of_le (and_toNat_le first 0x3f)
  · have hiv16 : iv.length ≤ blockBytes := hiv ▸ ivSize_le _ _
    show (iv ++ List.replicate (blockBytes - iv.length) 0).length = _
    rw [List.length_append, List.length_replicate]
    omega

variable {input properties password : Bytes} {parsed : AesProperties} {expected maximum : Nat}

/-- **Decoding decrypts the chain** and cuts it to the declared size, at a known price. -/
theorem returns_decodeAes (hhash : hasher.Digests digest) (hchain : decryptor.Chains decipher state)
    (hparsed : (parseProperties properties limits).result = .ok parsed) {iv : Block}
    (hiv : parsed.iv = iv.val) (hpassword : password.length + 24 < 2 ^ 64) {blocks : List Block}
    (hmaximum : expected ≤ maximum) (hexpected : expected ≤ (joined blocks).length) :
    Returns (decodeAes hasher decryptor (joined blocks) properties (some expected) maximum limits
        (some password))
      ((joined (Cbc.decrypt Block.mix (decipher (keyOf digest parsed password)) iv blocks)).take expected)
      (keyCharge parsed password + (blocks.length, blocks.length * blockBytes)) := by
  obtain ⟨hpower, hsalt, -⟩ := parsed_bounds hparsed
  have hkey := length_keyOf hhash parsed password
  have haligned : (joined blocks).length % blockBytes = 0 := by
    rw [length_joined, Nat.mul_mod_left]
  unfold decodeAes
  refine (Returns.of_free (trace_parseProperties _) hparsed).bind_free ?_
  refine (returns_checkLimit hmaximum).bind_free ?_
  rw [if_neg (Nat.not_lt.mpr hexpected), if_neg (not_not_intro haligned)]
  refine (returns_deriveKey hhash hpower (by omega)).bind ?_
  have hnew := hchain.new (keyOf digest parsed password) iv hkey
  rw [← hiv] at hnew
  refine (returns_orFormat hnew).bind_free ?_
  rw [chunks_joined]
  exact (returns_decryptChunks hchain _ blocks iv).bind_pure (Returns.pure _)

/-- A bounded budget suffices exactly when it covers the price. -/
theorem run_bounded_iff {α : Type} {m : Work α} {a : α} (h : m.result = .ok a) {units : Nat}
    (hunits : units < 2 ^ 64) :
    m.cost.2 ≤ units ↔ ∃ control, m.run (.uncancelled (.bounded units)) = (.ok a, control) := by
  constructor
  · intro hle
    rw [← h]
    exact ⟨_, Work.run_bounded _ (Nat.lt_of_le_of_lt hle hunits) hle⟩
  · rintro ⟨control, hrun⟩
    refine Nat.le_of_not_lt fun hlt => ?_
    obtain ⟨requested, maximum, control', hexhausted⟩ := Work.run_exhausted m hlt
    rw [hrun] at hexhausted
    cases hexhausted

/-- A decoding that fails has asked for nothing. -/
theorem trace_of_error (hhash : hasher.Digests digest) (hchain : decryptor.Chains decipher state)
    (hpassword : password.length + 24 < 2 ^ 64) {expected : Option Nat} {e : Error}
    (h : (decodeAes hasher decryptor input properties expected maximum limits
      (some password)).result = .error e) :
    (decodeAes hasher decryptor input properties expected maximum limits (some password)).trace = [] := by
  unfold decodeAes
  refine Metered.trace_bind_of_reached (trace_parseProperties _) fun parsed hparsed => ?_
  cases expected with
  | none => rfl
  | some expected =>
      refine Metered.trace_bind_of_reached (trace_checkLimit _ _ _) fun _ hlimit => ?_
      split
      · rfl
      rename_i hexpected
      split
      · rfl
      rename_i haligned
      have hlength : input.length = input.length / blockBytes * blockBytes :=
        (Nat.div_mul_cancel (Nat.dvd_of_mod_eq_zero (Decidable.not_not.mp haligned))).symm
      obtain ⟨blocks, rfl⟩ := exists_joined _ input hlength
      have hreturns := returns_decodeAes hhash hchain hparsed
        (show parsed.iv = (⟨parsed.iv, (parsed_bounds hparsed).2.2⟩ : Block).val from rfl) hpassword
        (checkLimit_eq_ok.mp hlimit) (Nat.not_lt.mp hexpected)
      rw [hreturns.result] at h
      cases h

/-- **What is decoded.**  The input is blocks, no fewer than the declared size, and the output
is their decryption, under the key and the IV of the properties, cut to that size. -/
theorem decodeAes_eq_ok (hhash : hasher.Digests digest) (hchain : decryptor.Chains decipher state)
    (hpassword : password.length + 24 < 2 ^ 64) {output : Bytes} :
    (decodeAes hasher decryptor input properties (some expected) maximum limits (some password)).result
        = .ok output ↔
      ∃ parsed iv blocks, (parseProperties properties limits).result = .ok parsed ∧ parsed.iv = iv.val ∧
        input = joined blocks ∧ expected ≤ maximum ∧ expected ≤ input.length ∧
        output = (joined (Cbc.decrypt Block.mix (decipher (keyOf digest parsed password)) iv
          blocks)).take expected := by
  constructor
  · intro hrun
    have hrun' := hrun
    unfold decodeAes at hrun
    obtain ⟨parsed, hparsed, h⟩ := Metered.bind_eq_ok.mp hrun
    obtain ⟨⟨⟩, hlimit, h⟩ := Metered.bind_eq_ok.mp h
    obtain ⟨hexpected, h⟩ := refuseFormat_eq_ok.mp h
    obtain ⟨haligned, -⟩ := refuseFormat_eq_ok.mp h
    have hmaximum : expected ≤ maximum := checkLimit_eq_ok.mp hlimit
    have hlength : input.length = input.length / blockBytes * blockBytes :=
      (Nat.div_mul_cancel (Nat.dvd_of_mod_eq_zero (Decidable.not_not.mp haligned))).symm
    obtain ⟨blocks, rfl⟩ := exists_joined _ input hlength
    have hreturns := returns_decodeAes hhash hchain hparsed
      (show parsed.iv = (⟨parsed.iv, (parsed_bounds hparsed).2.2⟩ : Block).val from rfl)
      hpassword hmaximum (Nat.not_lt.mp hexpected)
    exact ⟨parsed, _, blocks, hparsed, rfl, rfl, hmaximum, Nat.not_lt.mp hexpected,
      Except.ok.inj (hrun'.symm.trans hreturns.result)⟩
  · rintro ⟨parsed, iv, blocks, hparsed, hiv, rfl, hmaximum, hexpected, rfl⟩
    exact (returns_decodeAes hhash hchain hparsed hiv hpassword hmaximum hexpected).result

/--
**Decoding undoes encryption.**

The properties, the password and the bytes that fill up the last block are arbitrary, and the
cipher is any that is undone under the keys there are: what was enciphered and chained under
the key of the password is decoded to the plain bytes.
-/
theorem decodeAes_encrypt (hhash : hasher.Digests digest) (hchain : decryptor.Chains decipher state)
    {encipher : Bytes → Block → Block}
    (hinverse : ∀ key block, key.length = keyBytes → decipher key (encipher key block) = block)
    {first second : UInt8} {salt iv : Bytes} (hsalt : salt.length = saltSize first second)
    (hiv : iv.length = ivSize first second) (hallowed : Allowed limits (first &&& 0x3f).toNat)
    {start : Block} (hstart : start.val = iv ++ List.replicate (blockBytes - iv.length) 0)
    (hpassword : password.length + 24 < 2 ^ 64) {plain : Bytes} {blocks : List Block}
    (hplain : plain <+: joined blocks) (hmaximum : plain.length ≤ maximum) :
    (decodeAes hasher decryptor
        (joined (Cbc.encrypt Block.mix
          (encipher (keyOf digest (parsedProperties first salt iv) password)) start blocks))
        (first :: second :: (salt ++ iv)) (some plain.length) maximum limits (some password)).result
      = .ok plain := by
  have hparsed : (parseProperties (first :: second :: (salt ++ iv)) limits).result
      = .ok (parsedProperties first salt iv) := by
    rw [parseProperties_result hsalt hiv, if_pos hallowed]
  have hkey := length_keyOf hhash (parsedProperties first salt iv) password
  have hdecrypt := Cbc.decrypt_encrypt Block.mix_mix (fun block => hinverse _ block hkey) start blocks
  refine (decodeAes_eq_ok hhash hchain hpassword).mpr
    ⟨_, start, _, hparsed, hstart.symm, rfl, hmaximum, ?_, ?_⟩
  · rw [length_joined, Cbc.length_encrypt, ← length_joined]
    exact hplain.length_le
  · rw [hdecrypt]
    exact List.prefix_iff_eq_take.mp hplain

/-! A block of AES-256 and its enciphered form under one key, and crates that know no more. -/

def sampleKey : Bytes := (List.range keyBytes).map fun (i : Nat) => UInt8.ofNat i

/-- Its second half, in the letters of a password. -/
def samplePassword : String := "\u1110\u1312\u1514\u1716\u1918\u1b1a\u1d1c\u1f1e"

def samplePlain : Block := ⟨(List.range 16).map fun (i : Nat) => UInt8.ofNat (0x11 * i), rfl⟩

def sampleSecret : Block :=
  ⟨[0x8e, 0xa2, 0xb7, 0xca, 0x51, 0x67, 0x45, 0xbf, 0xea, 0xfc, 0x49, 0x90, 0x4b, 0x49, 0x60, 0x89], rfl⟩

def sampleCipher (key : Bytes) (block : Block) : Block :=
  if key ≠ sampleKey then block
  else if block = samplePlain then sampleSecret
  else if block = sampleSecret then samplePlain
  else block

theorem sampleCipher_sampleCipher (key : Bytes) (block : Block) :
    sampleCipher key (sampleCipher key block) = block := by
  have hdistinct : sampleSecret ≠ samplePlain := by decide
  unfold sampleCipher
  split
  · rfl
  · by_cases hplain : block = samplePlain
    · rw [if_pos hplain, if_neg hdistinct, if_pos rfl, hplain]
    · by_cases hsecret : block = sampleSecret
      · rw [if_neg hplain, if_pos hsecret, if_pos rfl, hsecret]
      · rw [if_neg hplain, if_neg hsecret, if_neg hplain, if_neg hsecret]

def sampleHasher : Hasher Bytes := ⟨[], fun fed bytes => fed ++ bytes, filled⟩

def sampleDecryptor : Decryptor (Bytes × Block) where
  new key iv := if h : iv.length = blockBytes then some (key, ⟨iv, h⟩) else none
  decryptBlock state block := ((sampleCipher state.1 block).mix state.2, (state.1, block))

theorem sampleHasher_digests : sampleHasher.Digests filled where
  finalize pieces := by
    have hfold : ∀ fed, pieces.foldl sampleHasher.update fed = fed ++ pieces.flatten := by
      induction pieces with
      | nil => exact fun fed => (List.append_nil fed).symm
      | cons piece rest ih =>
          intro fed
          rw [List.foldl_cons, ih, List.flatten_cons]
          exact List.append_assoc _ _ _
    exact congrArg filled (hfold [])
  length := length_filled

theorem sampleDecryptor_chains : sampleDecryptor.Chains sampleCipher fun key previous => (key, previous) where
  new _ iv _ := dif_pos iv.property
  decryptBlock _ _ _ := rfl

/-- The key is copied from sixteen bytes of salt and the eight letters of the password. -/
theorem decodeAes_encrypt_sample :
    (decodeAes sampleHasher sampleDecryptor sampleSecret.val
        (0xbf :: 0xf0 :: sampleKey.take 16) (some 16) 16 {} (some (passwordBytes samplePassword))).result
      = .ok samplePlain.val := by
  have hstart : (⟨List.replicate 16 0, rfl⟩ : Block).val = [] ++ List.replicate (blockBytes - 0) 0 := rfl
  have hencrypted : (decodeAes sampleHasher sampleDecryptor
      (joined (Cbc.encrypt Block.mix (sampleCipher (keyOf filled
        (parsedProperties 0xbf (sampleKey.take 16) []) (passwordBytes samplePassword)))
          ⟨List.replicate 16 0, rfl⟩ [samplePlain]))
      (0xbf :: 0xf0 :: (sampleKey.take 16 ++ [])) (some samplePlain.val.length) 16 {}
      (some (passwordBytes samplePassword))).result = .ok samplePlain.val :=
    decodeAes_encrypt sampleHasher_digests sampleDecryptor_chains
      (fun key block _ => sampleCipher_sampleCipher key block) (by decide) (by decide) (by decide) hstart
      (by decide) (by decide) (by decide)
  exact hencrypted

/--
**A refusal is free, and the price of a decoding is known.**

Whatever is wrong with an AES coder's input is found before the key is derived, so an error
has charged nothing.  A decoding that succeeds charges the rounds of the key and the length of
the input: a bounded budget is enough for it exactly when it holds that many units.
-/
theorem decodeAes_price (hhash : hasher.Digests digest) (hchain : decryptor.Chains decipher state)
    {expected : Option Nat} {password : Option Bytes}
    (hpassword : ∀ bytes, password = some bytes → bytes.length + 24 < 2 ^ 64) :
    (∀ e, (decodeAes hasher decryptor input properties expected maximum limits password).result = .error e →
      (decodeAes hasher decryptor input properties expected maximum limits password).cost = 0) ∧
    ∀ output, (decodeAes hasher decryptor input properties expected maximum limits password).result
        = .ok output →
      ∃ bytes parsed, password = some bytes ∧ (parseProperties properties limits).result = .ok parsed ∧
        ∀ units < 2 ^ 64, (keyCharge parsed bytes).2 + input.length ≤ units ↔
          ∃ control, (decodeAes hasher decryptor input properties expected maximum limits password).run
            (.uncancelled (.bounded units)) = (.ok output, control) := by
  cases password with
  | none => exact ⟨fun _ _ => rfl, fun _ h => by cases h⟩
  | some bytes =>
      have hbytes := hpassword bytes rfl
      refine ⟨fun e h => ?_, fun output h => ?_⟩
      · rw [Metered.cost, trace_of_error hhash hchain hbytes h, List.sum_nil]
      · cases expected with
        | none =>
            obtain ⟨_, -, h⟩ := Metered.bind_eq_ok.mp h
            cases h
        | some expected =>
            obtain ⟨parsed, iv, blocks, hparsed, hiv, rfl, hmaximum, hexpected, -⟩ :=
              (decodeAes_eq_ok hhash hchain hbytes).mp h
            have hcost := (returns_decodeAes hhash hchain hparsed hiv hbytes hmaximum hexpected).cost
            refine ⟨bytes, parsed, rfl, hparsed, fun units hunits => ?_⟩
            rw [← run_bounded_iff h hunits, hcost, length_joined]
            rfl

/-- The sample costs forty-eight units, for the bytes of its key and those of its block. -/
theorem decodeAes_price_sample :
    (∃ control, (decodeAes sampleHasher sampleDecryptor sampleSecret.val
      (0xbf :: 0xf0 :: sampleKey.take 16) (some 16) 16 {} (some (passwordBytes samplePassword))).run
        (.uncancelled (.bounded 48)) = (.ok samplePlain.val, control)) ∧
    ¬ ∃ control, (decodeAes sampleHasher sampleDecryptor sampleSecret.val
      (0xbf :: 0xf0 :: sampleKey.take 16) (some 16) 16 {} (some (passwordBytes samplePassword))).run
        (.uncancelled (.bounded 47)) = (.ok samplePlain.val, control) := by
  have hpassword : ∀ bytes, some (passwordBytes samplePassword) = some bytes →
      bytes.length + 24 < 2 ^ 64 := by
    intro bytes h
    rw [← Option.some.inj h]
    decide
  have hparsed : (parseProperties (0xbf :: 0xf0 :: sampleKey.take 16) {}).result
      = .ok ⟨directKdfPower, sampleKey.take 16, List.replicate 16 0⟩ := by decide
  obtain ⟨bytes, parsed, hbytes, h, hprice⟩ :=
    (decodeAes_price sampleHasher_digests sampleDecryptor_chains hpassword).2 samplePlain.val
      (show (decodeAes sampleHasher sampleDecryptor sampleSecret.val
        (0xbf :: 0xf0 :: sampleKey.take 16) (some 16) 16 {} (some (passwordBytes samplePassword))).result = _ by
          decide +kernel)
  obtain rfl := Except.ok.inj (hparsed.symm.trans h)
  obtain rfl := Option.some.inj hbytes
  refine ⟨(hprice 48 (by decide)).mp (by decide), fun h => ?_⟩
  exact absurd ((hprice 47 (by decide)).mpr h) (by decide)

end Aes

end Un7z
