/-
The sockets of a decoded contact info (`contact_info.rs`).

A decoded contact info carries a cache of the sockets of the small keys beside
the list that `socket_by_key` searches.  The cache takes the last socket of a
key whose address is listed, with a port that wraps around; the search takes
the first socket of the key, and gives up when a port overflows.

* `cache_of_lastListed`, `cache_of_unlisted` — the cache after decoding;
* `socketByKey_of_first`, `socketFrom_of_absent` — the search;
* `lookupsAgree_iff` — when the two agree on a key;
* `lookupsAgree_of_nodup` — they agree on every key when keys are distinct and
  no port overflows.
-/
import Mathlib.Data.List.Induction
import Sg32.Gossip.ContactInfo

namespace Sg32

def SOCKET_CACHE_SIZE : ℕ := 14

def SOCKET_ADDR_UNSPECIFIED : SocketAddr where
  ip := .v4 (Vector.replicate 4 0)
  port := 0

/-- A contact info as it is decoded. -/
structure CachedContactInfo extends ContactInfo where
  cache : Vector SocketAddr SOCKET_CACHE_SIZE

namespace ContactInfo

/-- One socket of the loop that fills the cache. -/
def cacheSocket (addrs : List IpAddr) (state : UInt16 × Vector SocketAddr SOCKET_CACHE_SIZE)
    (entry : SocketEntry) : UInt16 × Vector SocketAddr SOCKET_CACHE_SIZE :=
  let port := state.1 + entry.offset
  if hkey : entry.key.toNat < SOCKET_CACHE_SIZE then
    match addrs[entry.index.toNat]? with
    | some addr => (port, state.2.set entry.key.toNat { ip := addr, port := port } hkey)
    | none => (port, state.2)
  else (port, state.2)

/-- The port reached and the cache after some sockets. -/
def cacheSockets (addrs : List IpAddr) (sockets : List SocketEntry) :
    UInt16 × Vector SocketAddr SOCKET_CACHE_SIZE :=
  sockets.foldl (cacheSocket addrs) (0, Vector.replicate SOCKET_CACHE_SIZE SOCKET_ADDR_UNSPECIFIED)

/-- What decoding makes of the fields on the wire. -/
def deserialize (lite : ContactInfo) : CachedContactInfo :=
  { lite with cache := (cacheSockets lite.addrs lite.sockets).2 }

/-! ### Ports -/

/-- The sum of the offsets, as a number. -/
def portSum (sockets : List SocketEntry) : ℕ := (sockets.map fun entry => entry.offset.toNat).sum

@[simp] theorem portSum_nil : portSum [] = 0 := rfl

@[simp] theorem portSum_cons (entry : SocketEntry) (sockets : List SocketEntry) :
    portSum (entry :: sockets) = entry.offset.toNat + portSum sockets := rfl

@[simp] theorem portSum_append (xs ys : List SocketEntry) :
    portSum (xs ++ ys) = portSum xs + portSum ys := by
  rw [portSum, List.map_append, List.sum_append]
  rfl

/-! ### The cache -/

variable {addrs : List IpAddr} {sockets : List SocketEntry} {key : UInt8}

theorem cacheSockets_append (addrs : List IpAddr) (sockets : List SocketEntry)
    (entry : SocketEntry) :
    cacheSockets addrs (sockets ++ [entry]) =
      cacheSocket addrs (cacheSockets addrs sockets) entry := by
  rw [cacheSockets, List.foldl_append]
  rfl

theorem cacheSocket_port (addrs : List IpAddr)
    (state : UInt16 × Vector SocketAddr SOCKET_CACHE_SIZE) (entry : SocketEntry) :
    (cacheSocket addrs state entry).1 = state.1 + entry.offset := by
  unfold cacheSocket
  split_ifs
  · cases addrs[entry.index.toNat]? <;> rfl
  · rfl

theorem cacheSockets_port (addrs : List IpAddr) (sockets : List SocketEntry) :
    (cacheSockets addrs sockets).1 = UInt16.ofNat (portSum sockets) := by
  induction sockets using List.reverseRecOn with
  | nil => rfl
  | append_singleton sockets entry ih =>
    rw [cacheSockets_append, cacheSocket_port, ih, portSum_append, UInt16.ofNat_add]
    simp

/-- A socket of the key with a listed address is cached. -/
theorem cacheSocket_of_listed {state : UInt16 × Vector SocketAddr SOCKET_CACHE_SIZE}
    {entry : SocketEntry} {ip : IpAddr} (hkey : key.toNat < SOCKET_CACHE_SIZE)
    (heq : entry.key = key) (hlisted : addrs[entry.index.toNat]? = some ip) :
    (cacheSocket addrs state entry).2[key.toNat] =
      { ip := ip, port := state.1 + entry.offset } := by
  subst heq
  simp [cacheSocket, hkey, hlisted]

/-- Any other socket leaves the entry of the key alone. -/
theorem cacheSocket_of_unlisted {state : UInt16 × Vector SocketAddr SOCKET_CACHE_SIZE}
    {entry : SocketEntry} (hkey : key.toNat < SOCKET_CACHE_SIZE)
    (h : entry.key = key → addrs[entry.index.toNat]? = none) :
    (cacheSocket addrs state entry).2[key.toNat] = state.2[key.toNat] := by
  unfold cacheSocket
  by_cases heq : entry.key = key
  · simp [heq, h heq]
  · have hne : entry.key.toNat ≠ key.toNat := fun hsame => heq (UInt8.toNat_inj.mp hsame)
    split_ifs
    · cases addrs[entry.index.toNat]? with
      | none => rfl
      | some addr => exact Vector.getElem_set_ne (by assumption) hkey hne
    · rfl

/-- None of the sockets has the key and a listed address. -/
def Unlisted (addrs : List IpAddr) (key : UInt8) (sockets : List SocketEntry) : Prop :=
  ∀ entry ∈ sockets, entry.key = key → addrs[entry.index.toNat]? = none

/-- The last socket of the key whose address is listed, with the sockets around
it. -/
structure LastListed (addrs : List IpAddr) (key : UInt8) (sockets before : List SocketEntry)
    (last : SocketEntry) (after : List SocketEntry) (ip : IpAddr) : Prop where
  split : sockets = before ++ last :: after
  key_eq : last.key = key
  listed : addrs[last.index.toNat]? = some ip
  after : Unlisted addrs key after

theorem cacheSockets_append_of_unlisted (hkey : key.toNat < SOCKET_CACHE_SIZE)
    (before : List SocketEntry) {after : List SocketEntry} (h : Unlisted addrs key after) :
    (cacheSockets addrs (before ++ after)).2[key.toNat] =
      (cacheSockets addrs before).2[key.toNat] := by
  induction after using List.reverseRecOn with
  | nil => rw [List.append_nil]
  | append_singleton after entry ih =>
    rw [← List.append_assoc, cacheSockets_append,
      cacheSocket_of_unlisted hkey (h entry (by simp)),
      ih fun e he => h e (List.mem_append_left _ he)]

theorem cache_of_unlisted {info : ContactInfo} (hkey : key.toNat < SOCKET_CACHE_SIZE)
    (h : Unlisted info.addrs key info.sockets) :
    info.deserialize.cache[key.toNat] = SOCKET_ADDR_UNSPECIFIED := by
  have happend := cacheSockets_append_of_unlisted hkey [] h
  rw [List.nil_append] at happend
  rw [deserialize, happend, cacheSockets, List.foldl_nil, Vector.getElem_replicate]

theorem cache_of_lastListed {info : ContactInfo} {before after : List SocketEntry}
    {last : SocketEntry} {ip : IpAddr} (hkey : key.toNat < SOCKET_CACHE_SIZE)
    (h : LastListed info.addrs key info.sockets before last after ip) :
    info.deserialize.cache[key.toNat] =
      { ip := ip, port := UInt16.ofNat (portSum (before ++ [last])) } := by
  have hsplit : info.sockets = before ++ [last] ++ after := by simp [h.split]
  have hport := cacheSockets_port info.addrs (before ++ [last])
  rw [cacheSockets_append, cacheSocket_port] at hport
  rw [deserialize, hsplit, cacheSockets_append_of_unlisted hkey _ h.after, cacheSockets_append,
    cacheSocket_of_listed hkey h.key_eq h.listed, hport]

theorem Unlisted.append_singleton {entry : SocketEntry} (h : Unlisted addrs key sockets)
    (hentry : entry.key = key → addrs[entry.index.toNat]? = none) :
    Unlisted addrs key (sockets ++ [entry]) := by
  intro e he
  rcases List.mem_append.mp he with he | he
  · exact h e he
  · rw [List.mem_singleton.mp he]
    exact hentry

theorem unlisted_or_exists_lastListed (addrs : List IpAddr) (key : UInt8)
    (sockets : List SocketEntry) :
    Unlisted addrs key sockets ∨
      ∃ before last after ip, LastListed addrs key sockets before last after ip := by
  induction sockets using List.reverseRecOn with
  | nil => exact .inl fun entry hentry => absurd hentry List.not_mem_nil
  | append_singleton sockets entry ih =>
    by_cases hentry : entry.key = key → addrs[entry.index.toNat]? = none
    · -- the last one before this socket is still the last
      refine ih.imp (fun h => h.append_singleton hentry) ?_
      rintro ⟨before, last, after, ip, rfl, hkey, hlisted, hafter⟩
      exact ⟨before, last, after ++ [entry], ip, by simp, hkey, hlisted,
        hafter.append_singleton hentry⟩
    · obtain ⟨hkey, hne⟩ := Classical.not_imp.mp hentry
      obtain ⟨ip, hlisted⟩ := Option.ne_none_iff_exists'.mp hne
      exact .inr ⟨sockets, entry, [], ip, rfl, hkey, hlisted,
        fun e he => absurd he List.not_mem_nil⟩

/-! ### The search -/

/-- The first socket of the key, with the sockets around it. -/
structure FirstSocket (key : UInt8) (sockets before : List SocketEntry) (first : SocketEntry)
    (after : List SocketEntry) : Prop where
  split : sockets = before ++ first :: after
  key_eq : first.key = key
  before : ∀ entry ∈ before, entry.key ≠ key

theorem exists_firstSocket (h : ∃ entry ∈ sockets, entry.key = key) :
    ∃ before first after, FirstSocket key sockets before first after := by
  obtain ⟨before, first, after, hsplit, hkey, hbefore⟩ := Rust.exists_first_of_mem h
  exact ⟨before, first, after, hsplit, hkey, hbefore⟩

theorem checkedAddU16_ofNat {n : ℕ} (hn : n < 2 ^ 16) (offset : UInt16) :
    checkedAddU16 (UInt16.ofNat n) offset =
      if n + offset.toNat < 2 ^ 16 then some (UInt16.ofNat (n + offset.toNat)) else none := by
  rw [checkedAddU16, UInt16.toNat_ofNat_of_lt' hn, UInt16.ofNat_add, UInt16.ofNat_toNat]

/-- The search from a port, up to the first socket of the key. -/
theorem socketFrom_of_first {before after : List SocketEntry} {first : SocketEntry}
    (hkey : first.key = key) (hbefore : ∀ entry ∈ before, entry.key ≠ key) {n : ℕ}
    (hn : n < 2 ^ 16) :
    socketFrom addrs key (UInt16.ofNat n) (before ++ first :: after) =
      if n + portSum (before ++ [first]) < 2 ^ 16 then
        addrs[first.index.toNat]?.map fun ip =>
          { ip := ip, port := UInt16.ofNat (n + portSum (before ++ [first])) }
      else none := by
  induction before generalizing n with
  | nil =>
    have hsum : portSum ([] ++ [first]) = first.offset.toNat := by simp
    rw [List.nil_append, socketFrom, checkedAddU16_ofNat hn, hsum]
    by_cases hfits : n + first.offset.toNat < 2 ^ 16
    · simp only [if_pos hfits, Option.bind_eq_bind, Option.bind_some, if_pos hkey]
      cases addrs[first.index.toNat]? <;> rfl
    · rw [if_neg hfits, if_neg hfits]
      rfl
  | cons entry before ih =>
    rw [List.cons_append, socketFrom, checkedAddU16_ofNat hn, List.cons_append, portSum_cons,
      ← Nat.add_assoc]
    by_cases hfits : n + entry.offset.toNat < 2 ^ 16
    · simp only [if_pos hfits, Option.bind_eq_bind, Option.bind_some,
        if_neg (hbefore entry List.mem_cons_self)]
      exact ih (fun e he => hbefore e (List.mem_cons_of_mem _ he)) hfits
    · -- the port only grows from here
      rw [if_neg hfits, if_neg (by omega)]
      rfl

theorem socketFrom_of_absent (h : ∀ entry ∈ sockets, entry.key ≠ key) (port : UInt16) :
    socketFrom addrs key port sockets = none := by
  induction sockets generalizing port with
  | nil => rfl
  | cons entry sockets ih =>
    rw [socketFrom]
    cases checkedAddU16 port entry.offset with
    | none => rfl
    | some next =>
      simp only [Option.bind_eq_bind, Option.bind_some, if_neg (h entry List.mem_cons_self)]
      exact ih (fun e he => h e (List.mem_cons_of_mem _ he)) next

theorem socketByKey_of_first {info : ContactInfo} {before after : List SocketEntry}
    {first : SocketEntry} (h : FirstSocket key info.sockets before first after) :
    info.socketByKey key =
      if portSum (before ++ [first]) < 2 ^ 16 then
        info.addrs[first.index.toNat]?.map fun ip =>
          { ip := ip, port := UInt16.ofNat (portSum (before ++ [first])) }
      else none := by
  rw [socketByKey, h.split]
  have hfrom : socketFrom info.addrs key (UInt16.ofNat 0) (before ++ first :: after) = _ :=
    socketFrom_of_first h.key_eq h.before (Nat.two_pow_pos 16)
  rw [Nat.zero_add] at hfrom
  exact hfrom

/-! ### Agreement -/

/-- The cache holds the address that the search finds, and the unspecified
address when it finds none. -/
def LookupsAgree (info : ContactInfo) (key : UInt8) (hkey : key.toNat < SOCKET_CACHE_SIZE) :
    Prop :=
  (∀ addr, info.socketByKey key = some addr → info.deserialize.cache[key.toNat] = addr) ∧
    (info.socketByKey key = none →
      info.deserialize.cache[key.toNat] = SOCKET_ADDR_UNSPECIFIED)

/-- The first socket of the key is at a listed address, and its port is a
port. -/
structure Reachable (info : ContactInfo) (before : List SocketEntry) (first : SocketEntry)
    (ip : IpAddr) : Prop where
  listed : info.addrs[first.index.toNat]? = some ip
  fits : portSum (before ++ [first]) < 2 ^ 16

/-- The last listed socket of the key, if there is one, is at the address of
the first socket of the key, with ports that are equal modulo `2 ^ 16`; or at
the unspecified address if the first one cannot be reached. -/
def LastMatchesFirst (info : ContactInfo) (key : UInt8) : Prop :=
  ∀ before last after ip, LastListed info.addrs key info.sockets before last after ip →
    ∀ before' first after', FirstSocket key info.sockets before' first after' →
      (∀ ip', Reachable info before' first ip' →
        ip = ip' ∧ portSum (before ++ [last]) % 2 ^ 16 = portSum (before' ++ [first])) ∧
      ((∀ ip', ¬ Reachable info before' first ip') →
        ip = .v4 (Vector.replicate 4 0) ∧ portSum (before ++ [last]) % 2 ^ 16 = 0)

theorem socketByKey_of_reachable {info : ContactInfo} {before after : List SocketEntry}
    {first : SocketEntry} {ip : IpAddr} (h : FirstSocket key info.sockets before first after)
    (hreach : Reachable info before first ip) :
    info.socketByKey key =
      some { ip := ip, port := UInt16.ofNat (portSum (before ++ [first])) } := by
  rw [socketByKey_of_first h, if_pos hreach.fits, hreach.listed, Option.map_some]

theorem socketByKey_of_not_reachable {info : ContactInfo} {before after : List SocketEntry}
    {first : SocketEntry} (h : FirstSocket key info.sockets before first after)
    (hreach : ∀ ip, ¬ Reachable info before first ip) : info.socketByKey key = none := by
  rw [socketByKey_of_first h]
  split_ifs with hfits
  · cases hlisted : info.addrs[first.index.toNat]? with
    | none => rfl
    | some ip => exact absurd ⟨hlisted, hfits⟩ (hreach ip)
  · rfl

/-- No listed socket of the key: nothing is cached, and nothing found. -/
theorem lookupsAgree_of_unlisted {info : ContactInfo} (hkey : key.toNat < SOCKET_CACHE_SIZE)
    (h : Unlisted info.addrs key info.sockets) : LookupsAgree info key hkey := by
  have hnone : info.socketByKey key = none := by
    by_cases hkeys : ∃ entry ∈ info.sockets, entry.key = key
    · obtain ⟨before, first, after, hfirst⟩ := exists_firstSocket hkeys
      have hmem : first ∈ info.sockets := by simp [hfirst.split]
      refine socketByKey_of_not_reachable hfirst fun ip hreach => ?_
      exact absurd hreach.listed (by simp [h first hmem hfirst.key_eq])
    · push Not at hkeys
      exact socketFrom_of_absent hkeys 0
  refine ⟨fun addr haddr => ?_, fun _ => cache_of_unlisted hkey h⟩
  rw [hnone] at haddr
  cases haddr

theorem ofNat_portSum_inj {m n : ℕ} (hn : n < 2 ^ 16) :
    UInt16.ofNat m = UInt16.ofNat n ↔ m % 2 ^ 16 = n := by
  rw [← UInt16.toNat_inj, UInt16.toNat_ofNat', UInt16.toNat_ofNat_of_lt' hn]

/-- **The two lookups of a key agree** exactly if the last listed socket of the
key matches the first. -/
theorem lookupsAgree_iff (info : ContactInfo) (key : UInt8)
    (hkey : key.toNat < SOCKET_CACHE_SIZE) :
    LookupsAgree info key hkey ↔ LastMatchesFirst info key := by
  constructor
  · rintro ⟨hfound, hmissing⟩ before last after ip hlast before' first after' hfirst
    have hcache := cache_of_lastListed hkey hlast
    refine ⟨fun ip' hreach => ?_, fun hreach => ?_⟩
    · have heq := hfound _ (socketByKey_of_reachable hfirst hreach)
      rw [hcache, SocketAddr.mk.injEq, ofNat_portSum_inj hreach.fits] at heq
      exact heq
    · have heq := hmissing (socketByKey_of_not_reachable hfirst hreach)
      rw [hcache, SOCKET_ADDR_UNSPECIFIED, SocketAddr.mk.injEq] at heq
      exact ⟨heq.1, (ofNat_portSum_inj (by decide)).mp heq.2⟩
  · intro hmatch
    rcases unlisted_or_exists_lastListed info.addrs key info.sockets with
      hunlisted | ⟨before, last, after, ip, hlast⟩
    · exact lookupsAgree_of_unlisted hkey hunlisted
    have hmem : last ∈ info.sockets := by simp [hlast.split]
    obtain ⟨before', first, after', hfirst⟩ := exists_firstSocket ⟨last, hmem, hlast.key_eq⟩
    obtain ⟨hreached, hmissed⟩ := hmatch before last after ip hlast before' first after' hfirst
    rw [LookupsAgree, cache_of_lastListed hkey hlast]
    by_cases hreach : ∃ ip', Reachable info before' first ip'
    · obtain ⟨ip', hreach⟩ := hreach
      obtain ⟨rfl, hport⟩ := hreached ip' hreach
      rw [socketByKey_of_reachable hfirst hreach]
      refine ⟨fun addr haddr => ?_, nofun⟩
      cases haddr
      rw [(ofNat_portSum_inj hreach.fits).mpr hport]
    · push Not at hreach
      obtain ⟨rfl, hport⟩ := hmissed hreach
      rw [socketByKey_of_not_reachable hfirst hreach]
      refine ⟨nofun, fun _ => ?_⟩
      rw [(ofNat_portSum_inj (n := 0) (by decide)).mpr hport]
      rfl

/-- Distinct keys and a last port that is a port: the lookups agree on every
key. -/
theorem lookupsAgree_of_nodup {info : ContactInfo} (hkey : key.toNat < SOCKET_CACHE_SIZE)
    (hnodup : (info.sockets.map SocketEntry.key).Nodup) (hfits : portSum info.sockets < 2 ^ 16) :
    LookupsAgree info key hkey := by
  rcases unlisted_or_exists_lastListed info.addrs key info.sockets with
    hunlisted | ⟨before, last, after, ip, hlast⟩
  · exact lookupsAgree_of_unlisted hkey hunlisted
  have hfirst : FirstSocket key info.sockets before last after := by
    refine ⟨hlast.split, hlast.key_eq, fun entry hentry heq => ?_⟩
    rw [hlast.split, List.map_append, List.nodup_append] at hnodup
    refine hnodup.2.2 entry.key (List.mem_map_of_mem hentry) last.key ?_
      (heq.trans hlast.key_eq.symm)
    simp
  have hreach : Reachable info before last ip := by
    refine ⟨hlast.listed, lt_of_le_of_lt ?_ hfits⟩
    rw [hlast.split]
    simp
  rw [LookupsAgree, cache_of_lastListed hkey hlast, socketByKey_of_reachable hfirst hreach]
  refine ⟨fun addr haddr => ?_, nofun⟩
  cases haddr
  rfl

/-- Four sockets at one address; the last offset is one below zero. -/
def sampleSockets : ContactInfo where
  pubkey := Vector.replicate 32 1
  wallclock := 1000
  addrs := [.v4 (Vector.replicate 4 10)]
  sockets := [⟨0, 0, 8001⟩, ⟨5, 0, 2⟩, ⟨9, 0, 0⟩, ⟨10, 0, 65535⟩]
  rest := []

theorem lookupsAgree_sample :
    LookupsAgree sampleSockets 5 (by decide) ↔ LastMatchesFirst sampleSockets 5 :=
  lookupsAgree_iff sampleSockets 5 (by decide)

/-- The search gives up at the last of the sockets, where the cache has a
port. -/
theorem lookups_disagree : ¬ ∀ info key hkey, LookupsAgree info key hkey := by
  intro h
  have hmissing := (h sampleSockets 10 (by decide)).2 (by decide +kernel)
  exact absurd hmissing (by decide +kernel)

end ContactInfo

end Sg32
