import Mathlib

set_option autoImplicit false

/-! # Certificates and chains of them

`user/lib/tls/x509`: the DER reader of `asn1.c`, the certificate parser and the chain verifier of
`cert.c`, the table of anchors of `trust.c`. A pointer and an end are the bytes between them, a
pointer and a length are the bytes they span. The hashes and the signature checks are parameters
(`Signatures`), and so is the table of anchors. -/

namespace EmbLinkOs.Tls

open List

abbrev Bytes := List UInt8

/-! ## DER -/

/-- `struct der_tlv`: `hdr` is the header itself, not its length. -/
structure Tlv where
  tag : UInt8
  hdr : Bytes
  val : Bytes
  deriving DecidableEq

/-- The element as it stood on the wire: `der_raw`, `der_raw_len`. -/
def Tlv.raw (t : Tlv) : Bytes := t.hdr ++ t.val

def derBoolean : UInt8 := 0x01
def derInteger : UInt8 := 0x02
def derBitString : UInt8 := 0x03
def derOctetString : UInt8 := 0x04
def derOid : UInt8 := 0x06
def derUtcTime : UInt8 := 0x17
def derSequence : UInt8 := 0x30

/-- A big-endian number. -/
def be (b : Bytes) : Nat := b.foldl (fun n x => n * 256 + x.toNat) 0

/-- How many length bytes there are, and the length they give. -/
def derLength : Bytes → Option (Nat × Nat)
  | [] => none
  | l0 :: p =>
    if l0 < 0x80 then some (1, l0.toNat)
    else
      let nb := (l0 &&& 0x7f).toNat
      -- indefinite, or more than four bytes of length
      if nb = 0 ∨ 4 < nb then none
      else if p.length < nb then none
      else some (1 + nb, be (p.take nb))

/-- `der_parse`: the element at the front, and what stands behind it. -/
def derParse : Bytes → Option (Tlv × Bytes)
  | [] => none
  | tag :: p =>
    if tag &&& 0x1f = 0x1f then none
    else
      match derLength p with
      | none => none
      | some (k, len) =>
        if (p.drop k).length < len then none
        else some (⟨tag, tag :: p.take k, (p.drop k).take len⟩, (p.drop k).drop len)

/-- The element at the front, which has to have the tag `tag`. -/
def derExpect (tag : UInt8) (b : Bytes) : Option (Tlv × Bytes) :=
  (derParse b).filter fun p => p.1.tag = tag

/-- The elements a loop of `der_parse` gets in at most `n` turns. -/
def elementsTo : Nat → Bytes → List Tlv
  | 0, _ => []
  | n + 1, b =>
    match derParse b with
    | none => []
    | some (t, rest) => t :: elementsTo n rest

/-- The elements of `b`, up to the first that does not parse. Each takes bytes off the front. -/
def elements (b : Bytes) : List Tlv := elementsTo b.length b

/-- `der_oid_eq`. -/
def derOidEq (t : Tlv) (oid : Bytes) : Bool := t.tag = derOid && t.val = oid

def oidEcPubkey : Bytes := [0x2a, 0x86, 0x48, 0xce, 0x3d, 0x02, 0x01]
def oidP256 : Bytes := [0x2a, 0x86, 0x48, 0xce, 0x3d, 0x03, 0x01, 0x07]
def oidP384 : Bytes := [0x2b, 0x81, 0x04, 0x00, 0x22]
def oidEcdsaSha256 : Bytes := [0x2a, 0x86, 0x48, 0xce, 0x3d, 0x04, 0x03, 0x02]
def oidEcdsaSha384 : Bytes := [0x2a, 0x86, 0x48, 0xce, 0x3d, 0x04, 0x03, 0x03]
def oidRsaPubkey : Bytes := [0x2a, 0x86, 0x48, 0x86, 0xf7, 0x0d, 0x01, 0x01, 0x01]
def oidRsaSha256 : Bytes := [0x2a, 0x86, 0x48, 0x86, 0xf7, 0x0d, 0x01, 0x01, 0x0b]
def oidRsaSha384 : Bytes := [0x2a, 0x86, 0x48, 0x86, 0xf7, 0x0d, 0x01, 0x01, 0x0c]
def oidRsaSha512 : Bytes := [0x2a, 0x86, 0x48, 0x86, 0xf7, 0x0d, 0x01, 0x01, 0x0d]
def oidSan : Bytes := [0x55, 0x1d, 0x11]
def oidBasicConstr : Bytes := [0x55, 0x1d, 0x13]
def oidKeyUsage : Bytes := [0x55, 0x1d, 0x0f]
def oidExtKeyUsage : Bytes := [0x55, 0x1d, 0x25]
def oidEkuServer : Bytes := [0x2b, 0x06, 0x01, 0x05, 0x05, 0x07, 0x03, 0x01]
def oidEkuAny : Bytes := [0x55, 0x1d, 0x25, 0x00]

/-! ## Reading elements back -/

/-- `X509_CURVE_P256`, `X509_CURVE_P384`. -/
inductive Curve where
  | p256
  | p384
  deriving DecidableEq

/-- `ec_curve_bytes`. -/
def Curve.bytes : Curve → Nat
  | .p256 => 32
  | .p384 => 48

/-- `X509_SIG_*`, without `X509_SIG_NONE`. -/
inductive SigAlg where
  | ecdsaSha256
  | ecdsaSha384
  | rsaSha256
  | rsaSha384
  | rsaSha512
  deriving DecidableEq

/-- The key of a certificate or of an anchor. `qx` and `qy` are pointers without an end: each is all
of the buffer from there on, and `coordLen` says how much of it is the coordinate. -/
inductive PublicKey where
  | ec (curve : Curve) (qx qy : Bytes) (coordLen : Nat)
  | rsa (n e : Bytes)
  deriving DecidableEq

/-- What `parse_extensions` fills in; `pathLen` is absent where the source has -1. -/
structure Constraints where
  san : Option Bytes := none
  hasBasicConstraints : Bool := false
  isCa : Bool := false
  pathLen : Option Nat := none
  hasKeyUsage : Bool := false
  keyUsage : UInt16 := 0
  hasEku : Bool := false
  ekuServerAuth : Bool := false
  deriving DecidableEq

/-- `X509_KU_DIGITAL_SIGNATURE`. -/
def kuDigitalSignature : UInt16 := 0x8000

/-- `X509_KU_KEY_CERT_SIGN`. -/
def kuKeyCertSign : UInt16 := 0x0400

/-- A validity time, with its tag. -/
structure Time where
  tag : UInt8
  val : Bytes
  deriving DecidableEq

/-- `struct x509_cert`, without the raw bytes, which nothing reads. -/
structure Cert extends Constraints where
  tbs : Bytes
  key : PublicKey
  sigAlg : Option SigAlg
  sigR : Bytes
  sigS : Bytes
  sigRaw : Bytes
  issuer : Bytes
  subject : Bytes
  notBefore : Time
  notAfter : Time
  deriving DecidableEq

/-- The loops that strip the sign byte of an INTEGER. -/
def stripZeros : Bytes → Bytes
  | 0 :: b :: bs => stripZeros (b :: bs)
  | bs => bs

/-- `parse_ecdsa_sig`, `parse_sig` of `tls.c`. -/
def parseEcdsaSig (b : Bytes) : Option (Bytes × Bytes) := do
  let (seq, _) ← derExpect derSequence b
  let (r, rest) ← derExpect derInteger seq.val
  let (s, _) ← derExpect derInteger rest
  return (stripZeros r.val, stripZeros s.val)

/-- The curve of an `id-ecPublicKey`. -/
def curveOf (oid : Tlv) : Option Curve :=
  if derOidEq oid oidP256 then some .p256 else if derOidEq oid oidP384 then some .p384 else none

/-- `parse_spki`, with the bytes that stand behind the element in the buffer. -/
def parseSpki (spki after : Bytes) : Option PublicKey := do
  let (alg, rest) ← derExpect derSequence spki
  let (pk, behind) ← derExpect derBitString rest
  let (algOid, params) ← derParse alg.val
  if pk.val.head? ≠ some 0 then none
  else if derOidEq algOid oidEcPubkey then do
    let (curveOid, _) ← derExpect derOid params
    let curve ← curveOf curveOid
    if (pk.val.drop 1).head? ≠ some 0x04 then none
    else if (pk.val.length - 2) % 2 ≠ 0 then none
    else
      let coordLen := (pk.val.length - 2) / 2
      let qx := pk.val.drop 2 ++ behind ++ after
      return .ec curve qx (qx.drop coordLen) coordLen
  else if derOidEq algOid oidRsaPubkey then do
    let (seq, _) ← derExpect derSequence (pk.val.drop 1)
    let (n, rest) ← derExpect derInteger seq.val
    let (e, _) ← derExpect derInteger rest
    return .rsa n.val e.val
  else none

/-- The object identifier and the value of an extension; the flag between them is stepped over. -/
def extensionParts (ext : Bytes) : Option (Tlv × Bytes) := do
  let (oid, q) ← derParse ext
  let q := ((derExpect derBoolean q).map (·.2)).getD q
  let (val, _) ← derExpect derOctetString q
  return (oid, val.val)

/-- The value of a subject alternative name. -/
def readSan (val : Bytes) (c : Constraints) : Constraints :=
  match derExpect derSequence val with
  | some (gn, _) => { c with san := some gn.raw }
  | none => c

/-- The path length behind the flag of basic constraints. -/
def readPathLen (bp : Bytes) (c : Constraints) : Constraints :=
  match derExpect derInteger bp with
  | some (f, _) => if f.val ≠ [] ∧ f.val.length ≤ 2 then { c with pathLen := some (be f.val) } else c
  | none => c

/-- The value of basic constraints. -/
def readBasicConstraints (val : Bytes) (c : Constraints) : Constraints :=
  let c := { c with hasBasicConstraints := true }
  match derExpect derSequence val with
  | none => c
  | some (seq, _) =>
    match derExpect derBoolean seq.val with
    | some (f, bp) => readPathLen bp { c with isCa := f.val.head?.any (· ≠ 0) }
    | none => readPathLen seq.val c

/-- The value of a key usage: bit `i` is the mask `0x8000 >> i`. -/
def readKeyUsage (val : Bytes) (c : Constraints) : Constraints :=
  match derExpect derBitString val with
  | some (bs, _) =>
    if 2 ≤ bs.val.length then
      { c with hasKeyUsage := true,
               keyUsage := (bs.val.getD 1 0).toUInt16 <<< 8 ||| (bs.val.getD 2 0).toUInt16 }
    else c
  | none => c

/-- The value of an extended key usage. -/
def readEku (val : Bytes) (c : Constraints) : Constraints :=
  match derExpect derSequence val with
  | some (seq, _) =>
    { c with hasEku := true,
             ekuServerAuth := c.ekuServerAuth ||
               (elements seq.val).any fun o => derOidEq o oidEkuServer || derOidEq o oidEkuAny }
  | none => c

/-- What one extension does. -/
def applyExtension (c : Constraints) (oid : Tlv) (val : Bytes) : Constraints :=
  if derOidEq oid oidSan then readSan val c
  else if derOidEq oid oidBasicConstr then readBasicConstraints val c
  else if derOidEq oid oidKeyUsage then readKeyUsage val c
  else if derOidEq oid oidExtKeyUsage then readEku val c
  else c

/-- One turn of the loop over the extensions. -/
def parseExtension (c : Constraints) (ext : Tlv) : Constraints :=
  match extensionParts ext.val with
  | some (oid, val) => applyExtension c oid val
  | none => c

/-- `parse_extensions`: the loop ends at what is no SEQUENCE. -/
def parseExtensions (exts : Bytes) : Constraints :=
  match derExpect derSequence exts with
  | some (seq, _) => ((elements seq.val).takeWhile (·.tag = derSequence)).foldl parseExtension {}
  | none => {}

/-- The fields of a `tbsCertificate`, and what stands behind the key. -/
structure Fields where
  issuer : Tlv
  validity : Tlv
  subject : Tlv
  spki : Tlv
  trailer : Bytes
  deriving DecidableEq

/-- The walk over the fields. Where the element behind a version does not parse, the source keeps
the version and fails at the same place one line later. -/
def walkFields (tbs : Bytes) : Option Fields := do
  let (f, p) ← derParse tbs
  let (_, p) ← if f.tag = 0xA0 then derParse p else some (f, p)
  let (_, p) ← derParse p
  let (issuer, p) ← derExpect derSequence p
  let (validity, p) ← derExpect derSequence p
  let (subject, p) ← derExpect derSequence p
  let (spki, p) ← derExpect derSequence p
  return ⟨issuer, validity, subject, spki, p⟩

/-- The two times of a validity. -/
def parseValidity (val : Bytes) : Option (Time × Time) := do
  let (nb, rest) ← derParse val
  let (na, _) ← derParse rest
  return (⟨nb.tag, nb.val⟩, ⟨na.tag, na.val⟩)

/-- The optional fields behind the key: the first `[3]` holds the extensions. -/
def parseTrailer (trailer : Bytes) : Constraints :=
  match (elements trailer).find? (·.tag = 0xA3) with
  | some exts => parseExtensions exts.val
  | none => {}

/-- The outer `signatureAlgorithm`. -/
def sigAlgOf (oid : Tlv) : Option SigAlg :=
  if derOidEq oid oidEcdsaSha256 then some .ecdsaSha256
  else if derOidEq oid oidEcdsaSha384 then some .ecdsaSha384
  else if derOidEq oid oidRsaSha256 then some .rsaSha256
  else if derOidEq oid oidRsaSha384 then some .rsaSha384
  else if derOidEq oid oidRsaSha512 then some .rsaSha512
  else none

/-- The numbers of a signature, which only ECDSA has. -/
def sigNumbers (alg : Option SigAlg) (sig : Bytes) : Option (Bytes × Bytes) :=
  if alg = some .ecdsaSha256 ∨ alg = some .ecdsaSha384 then parseEcdsaSig sig else some ([], [])

/-- `x509_parse`, with the bytes that stand behind the certificate in its buffer. -/
def x509Parse (der after : Bytes) : Option Cert := do
  let (cert, behind) ← derExpect derSequence der
  let (tbs, rest) ← derExpect derSequence cert.val
  let (sigalg, p) ← derExpect derSequence rest
  let (sigval, _) ← derExpect derBitString p
  let (saOid, _) ← derParse sigalg.val
  if sigval.val.head? ≠ some 0 then none
  else do
    let sigRaw := sigval.val.drop 1
    let (sigR, sigS) ← sigNumbers (sigAlgOf saOid) sigRaw
    let f ← walkFields tbs.val
    let (notBefore, notAfter) ← parseValidity f.validity.val
    let key ← parseSpki f.spki.val (f.trailer ++ rest ++ behind ++ after)
    return { parseTrailer f.trailer with
      tbs := tbs.raw, key, sigAlg := sigAlgOf saOid, sigR, sigS, sigRaw,
      issuer := f.issuer.raw, subject := f.subject.raw, notBefore, notAfter }

/-! ## Host names and times -/

/-- `lc`. -/
def lc (ch : UInt8) : UInt8 := if 0x41 ≤ ch ∧ ch ≤ 0x5A then ch + 32 else ch

/-- `host_pat_eq`: one dNSName against the host. -/
def hostPatEq (pat host : Bytes) : Bool :=
  match pat with
  | 0x2A :: 0x2E :: _ =>
    -- a leading `*.`: the host from its first dot on against the pattern from its own
    let dot := host.dropWhile (· ≠ 0x2E)
    dot ≠ [] && dot.map lc = (pat.drop 1).map lc
  | _ => host.map lc = pat.map lc

/-- `x509_match_host`. -/
def x509MatchHost (c : Cert) (host : Bytes) : Bool :=
  match c.san with
  | none => false
  | some san =>
    match derExpect derSequence san with
    | none => false
    | some (gn, _) => (elements gn.val).any fun name => name.tag = 0x82 && hostPatEq name.val host

/-- A C string: the bytes before the first zero byte. -/
def cstr (b : Bytes) : Bytes := b.takeWhile (· ≠ 0)

/-- `time_to_14`. -/
def timeTo14 (t : Time) : Option Bytes :=
  if t.tag = derUtcTime then
    if t.val.length < 12 then none
    else
      let yy : Int := ((t.val.getD 0 0).toNat - 48 : Int) * 10 + ((t.val.getD 1 0).toNat - 48)
      some ((if 50 ≤ yy then [0x31, 0x39] else [0x32, 0x30]) ++ t.val.take 12)
  else if t.val.length < 14 then none
  else some (t.val.take 14)

/-- `x509_check_validity`. -/
def x509CheckValidity (c : Cert) (nowUtc : Bytes) : Bool :=
  match timeTo14 c.notBefore, timeTo14 c.notAfter with
  | some nb, some na => !decide (nowUtc < cstr nb) && !decide (cstr na < nowUtc)
  | _, _ => false

/-! ## The chain -/

/-- The hashes and the signature checks. -/
class Signatures where
  sha256 : Bytes → Bytes
  sha384 : Bytes → Bytes
  sha512 : Bytes → Bytes
  /-- `ecdsa_verify`: the curve, the coordinates, the hash and the signature's numbers. -/
  ecdsaVerify : Curve → Bytes → Bytes → Bytes → Bytes → Bytes → Bool
  /-- `rsa_pkcs1_verify`: the modulus, the exponent, the length that names the hash, the hash and the
  signature. -/
  rsaPkcs1Verify : Bytes → Bytes → Nat → Bytes → Bytes → Bool

export Signatures (sha256 sha384 sha512 ecdsaVerify rsaPkcs1Verify)

/-- `struct trust_anchor`. -/
structure TrustAnchor where
  subject : Bytes
  key : PublicKey
  deriving DecidableEq

/-- The table of `roots.h`. -/
class Anchors where
  anchors : List TrustAnchor

export Anchors (anchors)

/-- `trust_find`. -/
def trustFind [Anchors] (issuer : Bytes) : Option TrustAnchor := anchors.find? (·.subject = issuer)

section

variable [Signatures]

/-- The hash an algorithm names. -/
def SigAlg.hash : SigAlg → Bytes → Bytes
  | .ecdsaSha256 | .rsaSha256 => sha256
  | .ecdsaSha384 | .rsaSha384 => sha384
  | .rsaSha512 => sha512

/-- `verify_with`, `x509_verify_signed_by`, `x509_verify_signed_by_anchor`. The check reads as many
bytes at a coordinate as the curve has. -/
def verifyWith (child : Cert) (k : PublicKey) : Bool :=
  match child.sigAlg, k with
  | some .ecdsaSha256, .ec curve qx qy _ =>
    ecdsaVerify curve (qx.take curve.bytes) (qy.take curve.bytes) (sha256 child.tbs) child.sigR child.sigS
  | some .ecdsaSha384, .ec curve qx qy _ =>
    ecdsaVerify curve (qx.take curve.bytes) (qy.take curve.bytes) (sha384 child.tbs) child.sigR child.sigS
  | some .rsaSha256, .rsa n e => rsaPkcs1Verify n e 32 (sha256 child.tbs) child.sigRaw
  | some .rsaSha384, .rsa n e => rsaPkcs1Verify n e 48 (sha384 child.tbs) child.sigRaw
  | some .rsaSha512, .rsa n e => rsaPkcs1Verify n e 64 (sha512 child.tbs) child.sigRaw
  | _, _ => false

/-- `issuer_ok`. -/
def issuerOk (issuer : Cert) (depth : Nat) : Bool :=
  issuer.isCa && !(issuer.hasKeyUsage && issuer.keyUsage &&& kuKeyCertSign = 0) &&
    !(issuer.pathLen.any (· < depth))

/-- `X509_OK` and the errors. -/
inductive Verdict where
  | ok
  | errHost
  | errExpired
  | errSig
  | errName
  | errAnchor
  | errUsage
  deriving DecidableEq

variable [Anchors]

/-- The walk from `certs[depth]` up. -/
def walkChain (nowUtc : Bytes) : Nat → List Cert → Verdict
  | _, [] => .errAnchor
  | depth, c :: rest =>
    if !x509CheckValidity c nowUtc then .errExpired
    else
      match trustFind c.issuer with
      | some a => if verifyWith c a.key then .ok else .errSig
      | none =>
        match rest with
        | [] => .errAnchor
        | ca :: _ =>
          if !issuerOk ca depth then .errUsage
          else if c.issuer ≠ ca.subject then .errName
          else if !verifyWith c ca.key then .errSig
          else walkChain nowUtc (depth + 1) rest

/-- `x509_verify_chain`. -/
def x509VerifyChain (certs : List Cert) (host nowUtc : Bytes) : Verdict :=
  match certs with
  | [] => .errAnchor
  | leaf :: _ =>
    if !x509MatchHost leaf host then .errHost
    else if leaf.hasEku && !leaf.ekuServerAuth then .errUsage
    else if leaf.hasKeyUsage && leaf.keyUsage &&& kuDigitalSignature = 0 then .errUsage
    else walkChain nowUtc 0 certs

end

end EmbLinkOs.Tls
