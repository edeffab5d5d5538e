import RateLimit.GoRuntime

/-! The address that the HTTP adapter limits: `client_ip.go`. A peer outside the trusted
prefixes is the client. A trusted one is a proxy that appends the address it was called
from to `X-Forwarded-For`, so the hops count from the right and the first untrusted one is
the client; what stands left of it is whatever the client has sent.

Addresses and prefixes are those of `net/netip`. Reading an address from text is left to
the packages `net`, `netip` and `strings`: it is a parameter. -/
namespace RateLimit.Http

open Machine

/-! ## Addresses and prefixes -/

/-- `netip.Addr`, one that is valid. -/
inductive Addr where
  | v4 (bits : BitVec 32)
  | v6 (bits : BitVec 128) (zone : GoString)
  deriving DecidableEq, Repr

namespace Addr

/-- `Addr.BitLen`. -/
def bitLen : Addr → Nat
  | .v4 _ => 32
  | .v6 _ _ => 128

/-- `Addr.Unmap`: an IPv4 address in an IPv6 one is the IPv4 address, without a zone. -/
def unmap : Addr → Addr
  | .v4 bits => .v4 bits
  | .v6 bits zone => if bits >>> 32 = 0xffff#128 then .v4 (bits.setWidth 32) else .v6 bits zone

end Addr

/-- `netip.Prefix`. Without `bits` it is not valid. -/
structure Prefix where
  addr : Addr
  bits : Option Nat
  fits : ∀ count ∈ bits, count ≤ addr.bitLen
  deriving DecidableEq

namespace Prefix

/-- `Prefix.IsValid`. -/
def isValid (network : Prefix) : Bool := network.bits.isSome

/-- The address of `Prefix.Masked`: the bits behind the prefix are zero, and no zone. -/
def maskedAddr (count : Nat) : Addr → Addr
  | .v4 bits => .v4 (bits >>> (32 - count) <<< (32 - count))
  | .v6 bits _ => .v6 (bits >>> (128 - count) <<< (128 - count)) []

theorem maskedAddr_bitLen (count : Nat) (addr : Addr) : (maskedAddr count addr).bitLen = addr.bitLen := by
  cases addr <;> rfl

/-- `Prefix.Masked`. -/
def masked (network : Prefix) : Prefix where
  addr := maskedAddr (network.bits.getD 0) network.addr
  bits := network.bits
  fits := fun count given => by
    rw [maskedAddr_bitLen]
    exact network.fits count given

/-- `Prefix.Contains`: never an address of the other family or one with a zone. -/
def contains (network : Prefix) (address : Addr) : Bool :=
  match network.bits, network.addr, address with
  | some count, .v4 own, .v4 bits => (bits ^^^ own) >>> (32 - count) == 0
  | some count, .v6 own _, .v6 bits zone => zone.isEmpty && (bits ^^^ own) >>> (128 - count) == 0
  | _, _, _ => false

end Prefix

/-! ## The extractor -/

/-- `fmt.Errorf("%w: detail", ErrInvalidClientIP)`. -/
structure InvalidClientIP where
  detail : String
  deriving DecidableEq, Repr

def maxTrustedProxies : Nat := 64

def maxForwardedBytes : Nat := 4096

def maxForwardedHops : Nat := 32

/-- `ClientIPExtractor`, one that is not nil. -/
structure ClientIPExtractor where
  trusted : List Prefix
  deriving DecidableEq

/-- The loop of `NewClientIPExtractor`. -/
def maskTrusted : Nat → List Prefix → Except InvalidClientIP (List Prefix)
  | _, [] => .ok []
  | index, network :: rest =>
    if network.isValid then (maskTrusted (index + 1) rest).map (network.masked :: ·)
    else .error ⟨"trusted proxy at index " ++ toString index ++ " is invalid"⟩

def newClientIPExtractor (trustedProxies : List Prefix) : Except InvalidClientIP ClientIPExtractor :=
  if trustedProxies.length > maxTrustedProxies then .error ⟨"too many trusted proxies"⟩
  else (maskTrusted 0 trustedProxies).map .mk

/-- How `net.SplitHostPort`, `strings.TrimSpace` and `netip.ParseAddr` read a text. The
empty text is no address. -/
structure AddressText where
  splitHostPort : GoString → Option GoString
  trimSpace : GoString → GoString
  parseAddr : GoString → Option Addr
  trimSpace_nil : trimSpace [] = []
  parseAddr_nil : parseAddr [] = none

/-- What `ClientIP` reads of an `http.Request`: the peer, and the lines of `X-Forwarded-For`. -/
structure HttpRequest where
  remoteAddr : GoString
  forwardedFor : List GoString

/-- `Header.Get("X-Forwarded-For")`: the first line, or nothing. -/
def HttpRequest.forwarded (request : HttpRequest) : GoString := request.forwardedFor.headD []

def AddressText.parseRemoteAddr (text : AddressText) (value : GoString) : Except InvalidClientIP Addr :=
  match text.parseAddr ((text.splitHostPort value).getD value) with
  | none => .error ⟨"malformed remote address"⟩
  | some address => .ok address.unmap

/-- One part of the forwarded chain. -/
def AddressText.hop (text : AddressText) (part : GoString) : Option Addr :=
  (text.parseAddr (text.trimSpace part)).map Addr.unmap

/-- The loop of `ClientIP` over the parts. -/
def AddressText.parseHops (text : AddressText) : List GoString → Except InvalidClientIP (List Addr)
  | [] => .ok []
  | part :: rest =>
    match text.hop part with
    | none => .error ⟨"malformed forwarded hop"⟩
    | some address => (text.parseHops rest).map (address :: ·)

namespace ClientIPExtractor

variable (extractor : ClientIPExtractor)

def isTrusted (address : Addr) : Bool := extractor.trusted.any (·.contains address)

/-- The end of `ClientIP`: from the last hop to the first, and the first one if all are
trusted. It panics without hops. -/
def selectHop (addresses : List Addr) : Machine (Except InvalidClientIP Addr) :=
  match addresses.reverse.find? (fun address => !extractor.isTrusted address), addresses with
  | some address, _ => pure (.ok address)
  | none, first :: _ => pure (.ok first)
  | none, [] => .panic

/-- `ClientIP` for a trusted peer with a forwarded chain. -/
def forwardedIP (text : AddressText) (forwarded : GoString) : Machine (Except InvalidClientIP Addr) :=
  if forwarded.length > maxForwardedBytes then pure (.error ⟨"forwarded chain too large"⟩)
  else if (forwarded.splitOn 44).length > maxForwardedHops then pure (.error ⟨"too many forwarded hops"⟩)
  else match text.parseHops (forwarded.splitOn 44) with
    | .error problem => pure (.error problem)
    | .ok addresses => extractor.selectHop addresses

def clientIP (text : AddressText) (request : HttpRequest) : Machine (Except InvalidClientIP Addr) :=
  match text.parseRemoteAddr request.remoteAddr with
  | .error problem => pure (.error problem)
  | .ok peer =>
    if !extractor.isTrusted peer then pure (.ok peer)
    else if request.forwarded = [] then pure (.ok peer)
    else extractor.forwardedIP text request.forwarded

end ClientIPExtractor

/-! ## The rightmost untrusted hop -/

/-- The addresses of a forwarded chain, in its order. -/
def AddressText.hops (text : AddressText) (forwarded : GoString) : List Addr :=
  (forwarded.splitOn 44).filterMap text.hop

/-- The last untrusted address of a list. -/
def ClientIPExtractor.RightmostUntrusted (extractor : ClientIPExtractor) (hops : List Addr) (address : Addr) : Prop :=
  ∃ before after, hops = before ++ address :: after ∧ extractor.isTrusted address = false ∧
    ∀ later ∈ after, extractor.isTrusted later = true

variable {extractor : ClientIPExtractor} {text : AddressText} {hops : List Addr}

theorem AddressText.hops_nil (text : AddressText) : text.hops [] = [] := by
  simp [hops, hop, text.trimSpace_nil, text.parseAddr_nil]

theorem AddressText.hops_cons (text : AddressText) (first rest : GoString) :
    text.hops (first ++ 44 :: rest) = text.hops first ++ text.hops rest := by
  rw [hops, List.splitOn_append_cons_self, List.filterMap_append]
  rfl

/-- If every part is an address, the loop collects the hops. -/
theorem AddressText.parseHops_ok {parts : List GoString} (parsed : text.parseHops parts = .ok addresses) :
    addresses = parts.filterMap text.hop ∧ addresses.length = parts.length := by
  induction parts generalizing addresses with
  | nil =>
    cases parsed
    exact ⟨rfl, rfl⟩
  | cons part rest ih =>
    unfold parseHops at parsed
    cases read : text.hop part with
    | none =>
      rw [read] at parsed
      cases parsed
    | some address =>
      rw [read] at parsed
      cases later : text.parseHops rest with
      | error problem =>
        rw [later] at parsed
        cases parsed
      | ok addresses' =>
        rw [later] at parsed
        cases parsed
        obtain ⟨same, size⟩ := ih later
        refine ⟨?_, by rw [List.length_cons, List.length_cons, size]⟩
        rw [List.filterMap_cons_some read, same]

/-- A list with an untrusted address has exactly one that the scan from the right finds. -/
theorem ClientIPExtractor.selectHop_untrusted (present : ∃ hop ∈ hops, extractor.isTrusted hop = false) :
    ∃ address, extractor.selectHop hops = pure (.ok address) ∧ extractor.RightmostUntrusted hops address := by
  cases found : hops.reverse.find? fun address => !extractor.isTrusted address with
  | none =>
    obtain ⟨hop, member, untrusted⟩ := present
    have trusted := List.find?_eq_none.mp found hop (List.mem_reverse.mpr member)
    rw [untrusted] at trusted
    exact absurd rfl trusted
  | some address =>
    refine ⟨address, by simp only [selectHop, found], ?_⟩
    obtain ⟨untrusted, after, before, split, trusted⟩ := List.find?_eq_some_iff_append.mp found
    refine ⟨before.reverse, after.reverse, ?_, by simpa using untrusted, fun later member => ?_⟩
    · have turned := congrArg List.reverse split
      simpa using turned
    · simpa using trusted later (List.mem_reverse.mp member)

theorem ClientIPExtractor.RightmostUntrusted.unique {one two : Addr} (first : extractor.RightmostUntrusted hops one)
    (second : extractor.RightmostUntrusted hops two) : one = two := by
  obtain ⟨before, after, rfl, untrusted, trusted⟩ := first
  obtain ⟨before', after', same, untrusted', trusted'⟩ := second
  rcases List.append_eq_append_iff.mp same with ⟨middle, rfl, tail⟩ | ⟨middle, rfl, tail⟩
  · cases middle with
    | nil => exact (List.cons.inj tail).1
    | cons head rest =>
      obtain ⟨rfl, rfl⟩ := List.cons.inj tail
      rw [trusted two (by simp)] at untrusted'
      cases untrusted'
  · cases middle with
    | nil => exact (List.cons.inj tail).1.symm
    | cons head rest =>
      obtain ⟨rfl, rfl⟩ := List.cons.inj tail
      rw [trusted' one (by simp)] at untrusted
      cases untrusted

/-- What is put before a list does not matter for the last untrusted address in it. -/
theorem ClientIPExtractor.RightmostUntrusted.append {address : Addr} (last : extractor.RightmostUntrusted hops address)
    (more : List Addr) : extractor.RightmostUntrusted (more ++ hops) address := by
  obtain ⟨before, after, rfl, untrusted, trusted⟩ := last
  exact ⟨more ++ before, after, by rw [List.append_assoc], untrusted, trusted⟩

/-! ## What `ClientIP` returns -/

/-- An address from a chain with an untrusted hop is the last such hop. -/
theorem ClientIPExtractor.forwardedIP_rightmost
    (present : ∃ hop ∈ text.hops forwarded, extractor.isTrusted hop = false)
    (answer : extractor.forwardedIP text forwarded = pure (.ok address)) :
    extractor.RightmostUntrusted (text.hops forwarded) address := by
  unfold forwardedIP at answer
  split_ifs at answer
  · cases answer
  · cases answer
  cases parsed : text.parseHops (forwarded.splitOn 44) with
  | error problem =>
    rw [parsed] at answer
    cases answer
  | ok addresses =>
    rw [parsed] at answer
    obtain rfl : addresses = text.hops forwarded := (AddressText.parseHops_ok parsed).1
    obtain ⟨last, selected, rightmost⟩ := selectHop_untrusted present
    cases Machine.pure_injective (selected.symm.trans answer)
    exact rightmost

/-- A trusted peer with a chain is passed over. -/
theorem ClientIPExtractor.clientIP_trusted {request : HttpRequest}
    (peer : text.parseRemoteAddr request.remoteAddr = .ok address) (trusted : extractor.isTrusted address = true)
    (chain : request.forwarded ≠ []) :
    extractor.clientIP text request = extractor.forwardedIP text request.forwarded := by
  simp [clientIP, peer, trusted, chain]

/-- An untrusted peer is the client. -/
theorem ClientIPExtractor.clientIP_untrusted {request : HttpRequest}
    (peer : text.parseRemoteAddr request.remoteAddr = .ok address) (untrusted : extractor.isTrusted address = false) :
    extractor.clientIP text request = pure (.ok address) := by
  simp [clientIP, peer, untrusted]

/-- The client cannot choose the address it is limited by. Behind a trusted peer two
chains with the same end give the last untrusted hop of that end, if it has one; an
untrusted peer is the address whatever the header says; and an untrusted hop or peer
never leads to a trusted address. -/
theorem ClientIPExtractor.clientIP_not_chosen (extractor : ClientIPExtractor) (text : AddressText)
    (remote : GoString) (peer : Addr) (parsed : text.parseRemoteAddr remote = .ok peer) :
    (∀ (a b s : GoString) (lines lines' : List GoString) (one two : Addr), extractor.isTrusted peer = true →
      (∃ hop ∈ text.hops s, extractor.isTrusted hop = false) →
      extractor.clientIP text ⟨remote, (a ++ 44 :: s) :: lines⟩ = pure (.ok one) →
      extractor.clientIP text ⟨remote, (b ++ 44 :: s) :: lines'⟩ = pure (.ok two) →
      one = two ∧ extractor.RightmostUntrusted (text.hops s) one) ∧
    (∀ headers headers' : List GoString, extractor.isTrusted peer = false →
      extractor.clientIP text ⟨remote, headers⟩ = extractor.clientIP text ⟨remote, headers'⟩) ∧
    (∀ (headers : List GoString) (address : Addr),
      (∃ hop ∈ text.hops (headers.headD []), extractor.isTrusted hop = false) ∨ extractor.isTrusted peer = false →
      extractor.clientIP text ⟨remote, headers⟩ = pure (.ok address) → extractor.isTrusted address = false) := by
  -- The answer to a chain that ends in `s`, whatever precedes it.
  have ending : ∀ (a s : GoString) (lines : List GoString) (address : Addr), extractor.isTrusted peer = true →
      (∃ hop ∈ text.hops s, extractor.isTrusted hop = false) →
      extractor.clientIP text ⟨remote, (a ++ 44 :: s) :: lines⟩ = pure (.ok address) →
      extractor.RightmostUntrusted (text.hops s) address := by
    intro a s lines address trusted ⟨hop, member, untrusted⟩ answer
    rw [clientIP_trusted parsed trusted (by simp [HttpRequest.forwarded])] at answer
    have inside : hop ∈ text.hops (a ++ 44 :: s) := by
      rw [AddressText.hops_cons]
      exact List.mem_append_right _ member
    have whole := forwardedIP_rightmost ⟨hop, inside, untrusted⟩ answer
    obtain ⟨last, -, rightmost⟩ : ∃ last, extractor.selectHop (text.hops s) = pure (.ok last) ∧ _ :=
      selectHop_untrusted ⟨hop, member, untrusted⟩
    rw [AddressText.hops_cons] at whole
    exact whole.unique (rightmost.append _) ▸ rightmost
  refine ⟨?_, ?_, ?_⟩
  · intro a b s lines lines' one two trusted present first second
    have rightmost := ending a s lines one trusted present first
    exact ⟨rightmost.unique (ending b s lines' two trusted present second), rightmost⟩
  · intro headers headers' untrusted
    rw [clientIP_untrusted parsed untrusted, clientIP_untrusted parsed untrusted]
  · intro headers address outside answer
    cases known : extractor.isTrusted peer with
    | false =>
      rw [clientIP_untrusted parsed known] at answer
      cases Machine.pure_injective answer
      exact known
    | true =>
      have present := outside.resolve_right (by simp [known])
      have chain : (⟨remote, headers⟩ : HttpRequest).forwarded ≠ [] := by
        intro empty
        rw [show headers.headD [] = [] from empty, text.hops_nil] at present
        obtain ⟨hop, member, -⟩ := present
        cases member
      rw [clientIP_trusted parsed known chain] at answer
      obtain ⟨-, -, -, untrusted, -⟩ := forwardedIP_rightmost present answer
      exact untrusted

/-! Dotted quads, for one deployment to look at. -/

/-- A decimal number below 256 without leading zeros. -/
def octet (digits : GoString) : Option Nat :=
  let value := digits.foldl (fun value digit => value * 10 + (digit.toNat - 48)) 0
  if digits.all (fun digit => 48 ≤ digit && digit ≤ 57) ∧ digits ≠ [] ∧ (digits.head? ≠ some 48 ∨ digits = [48]) ∧
      digits.length ≤ 3 ∧ value < 256 then some value
  else none

/-- The readers, on IPv4 addresses with and without a port. -/
def dottedQuads : AddressText where
  splitHostPort value := match value.splitOn 58 with
    | [host, _] => some host
    | _ => none
  trimSpace value := ((value.dropWhile (· == 32)).reverse.dropWhile (· == 32)).reverse
  parseAddr value := match (value.splitOn 46).map octet with
    | [some a, some b, some c, some d] => some (.v4 (BitVec.ofNat 32 (((a * 256 + b) * 256 + c) * 256 + d)))
    | _ => none
  trimSpace_nil := rfl
  parseAddr_nil := rfl

/-- Behind a proxy of `10.0.0.0/8`, a client that sends a chain of its own is still
limited by `203.0.113.9`. -/
theorem ClientIPExtractor.clientIP_not_chosen_behind_proxy :
    let extractor : ClientIPExtractor := ⟨[⟨.v4 0x0a000000#32, some 8, by decide⟩]⟩
    let remote := GoString.ofLiteral "10.0.0.1:443"
    let ending := GoString.ofLiteral " 203.0.113.9, 10.7.7.7"
    newClientIPExtractor [⟨.v4 0x0a010203#32, some 8, by decide⟩] = .ok extractor ∧
      dottedQuads.parseRemoteAddr remote = .ok (.v4 0x0a000001#32) ∧
      extractor.clientIP dottedQuads ⟨remote, [.ofLiteral "1.1.1.1" ++ 44 :: ending]⟩ =
        pure (.ok (.v4 0xcb007109#32)) ∧
      extractor.clientIP dottedQuads ⟨remote, [.ofLiteral "10.1.1.1, 2.2.2.2" ++ 44 :: ending]⟩ =
        pure (.ok (.v4 0xcb007109#32)) ∧
      extractor.RightmostUntrusted (dottedQuads.hops ending) (.v4 0xcb007109#32) := by
  intro extractor remote ending
  have parsed : dottedQuads.parseRemoteAddr remote = .ok (.v4 0x0a000001#32) := by decide +kernel
  have one : extractor.clientIP dottedQuads ⟨remote, [.ofLiteral "1.1.1.1" ++ 44 :: ending]⟩ =
      pure (.ok (.v4 0xcb007109#32)) := by decide +kernel
  have two : extractor.clientIP dottedQuads ⟨remote, [.ofLiteral "10.1.1.1, 2.2.2.2" ++ 44 :: ending]⟩ =
      pure (.ok (.v4 0xcb007109#32)) := by decide +kernel
  have present : ∃ hop ∈ dottedQuads.hops ending, extractor.isTrusted hop = false := by decide +kernel
  obtain ⟨same, -⟩ := extractor.clientIP_not_chosen dottedQuads remote _ parsed
  exact ⟨by decide +kernel, parsed, one, two, (same _ _ ending [] [] _ _ (by decide +kernel) present one two).2⟩

end RateLimit.Http
