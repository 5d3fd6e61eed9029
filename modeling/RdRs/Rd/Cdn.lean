/-
  `rd/cdn/probe.rs`, `rd/cdn/host_map.rs` — from the downloaded server list to the host of a request.

  A line of the list that names a CDN host becomes an entry, the entries are timed, the fastest one is
  pinned, and `rewrite_url` puts the pinned host, or another of the list, into the URL that is then
  requested with the Bearer token.

  Two tests guard the way.  At the entry `fetch_server_list` asks whether the hostname CONTAINS a CDN
  domain; at the exit `is_rd_cdn_host` asks whether the host of the old URL ENDS with one.  Nothing
  asks about the new host.

  * `fetchServerList_mem` — the entries are the hosts of the accepted lines;
  * `rewriteUrl_cases` — the new host is the pinned one, a reachable one or a Cloudflare host;
  * `rewrite_stays_on_cdn_iff` — every rewritten URL is on a CDN host exactly when every accepted host
    is.
-/
import RdRs.Rd.Execute

set_option linter.unusedVariables false

namespace RdRs.Rd

/-! ## Texts -/

/-- `char::is_whitespace` -/
def isWhitespace (c : Char) : Bool :=
  decide (9 ≤ c.toNat ∧ c.toNat ≤ 13) || decide (0x2000 ≤ c.toNat ∧ c.toNat ≤ 0x200A) ||
    [0x20, 0x85, 0xA0, 0x1680, 0x2028, 0x2029, 0x202F, 0x205F, 0x3000].contains c.toNat

/-- `str::trim` -/
def trim (s : List Char) : List Char :=
  ((s.dropWhile isWhitespace).reverse.dropWhile isWhitespace).reverse

/-- `str::starts_with` -/
def startsWith (s pre : String) : Bool := decide (pre.toList <+: s.toList)

/-- `str::ends_with` -/
def endsWith (s suf : String) : Bool := decide (suf.toList <:+ s.toList)

/-- `str::lines`: a last line that is empty does not count. (A `\r` at the end of a line is whitespace
    and is trimmed later.) -/
def lines (text : String) : List (List Char) :=
  let parts := text.toList.splitOn '\n'
  if parts.getLast? = some [] then parts.dropLast else parts

/-- `host.split('.').next()` -/
def firstLabel (host : String) : String := String.ofList (host.toList.takeWhile (· ≠ '.'))

/-! ## The server list -/

structure ServerEntry where
  hostname : String
  ipv4 : Option String
  ipv6 : Option String
deriving Repr, DecidableEq

/-- The order in which a `HashMap` with keys of type `String` gives its entries. -/
structure HashOrder where
  order : {α : Type} → List (String × α) → List (String × α)
  perm : ∀ {α : Type} (entries : List (String × α)), (order entries).Perm entries

/-- The host and the address of a line, if it has both and the host is accepted. -/
def acceptLine (line : List Char) : Option (String × String) :=
  if '|' ∈ line then
    let hostname := String.ofList (trim (line.takeWhile (· ≠ '|')))
    let ip := String.ofList (trim ((line.dropWhile (· ≠ '|')).tail))
    if hostname = "" ∨ ip = "" ∨ startsWith hostname "generated" then none
    else if !contains hostname ".download.real-debrid.com" &&
        !contains hostname ".download.real-debrid.net" then none
    else some (hostname, ip)
  else none

/-- An address goes to the field of its family. -/
def ServerEntry.setIp (e : ServerEntry) (ip : String) : ServerEntry :=
  if contains ip ":" then { e with ipv6 := some ip } else { e with ipv4 := some ip }

/-- A change at one key of a `HashMap`: `f` makes the new value of the old one. -/
def upsert {α : Type} (key : String) (f : Option α → α) : List (String × α) → List (String × α)
  | [] => [(key, f none)]
  | (k, v) :: map => if k = key then (k, f (some v)) :: map else (k, v) :: upsert key f map

/-- `map.entry(hostname).or_insert(..)` and the assignment to it. -/
def addLine (map : List (String × ServerEntry)) (line : String × String) :
    List (String × ServerEntry) :=
  upsert line.1 (fun e => (e.getD ⟨line.1, none, none⟩).setIp line.2) map

/-- `fetch_server_list`, from the text of the list on -/
def fetchServerList (hashOrder : HashOrder) (text : String) : List ServerEntry :=
  (hashOrder.order (((lines text).filterMap acceptLine).foldl addLine [])).map Prod.snd

/-! ## Latencies -/

variable {L : Type}

/-- `HashMap::insert` -/
def insertKey {α : Type} (map : List (String × α)) (key : String) (value : α) : List (String × α) :=
  upsert key (fun _ => value) map

/-- One host of `probe_family`: `latency` is what its task measures, if it ends. -/
def probeStep (latency : String → Option L) (maps : List (String × L) × List (String × String))
    (e : String × String) : List (String × L) × List (String × String) :=
  match latency e.1 with
  | none => maps
  | some lat => (insertKey maps.1 e.1 lat, insertKey maps.2 e.1 e.2)

/-- `probe_family` -/
def probeFamily (latency : String → Option L) (entries : List (String × String)) :
    List (String × L) × List (String × String) :=
  entries.foldl (probeStep latency) ([], [])

/-- `NetworkTestResults` -/
structure NetworkTestResults (L : Type) where
  ipv4Latency : List (String × L)
  ipv6Latency : List (String × L)
  ipv4Addresses : List (String × String)
  ipv6Addresses : List (String × String)

/-- `run_latency_test_on_entries` -/
def runLatencyTestOnEntries (latency4 latency6 : String → Option L) (entries : List ServerEntry) :
    NetworkTestResults L :=
  let ipv4 := probeFamily latency4 (entries.filterMap fun e => e.ipv4.map fun ip => (e.hostname, ip))
  let ipv6 := probeFamily latency6 (entries.filterMap fun e => e.ipv6.map fun ip => (e.hostname, ip))
  ⟨ipv4.1, ipv6.1, ipv4.2, ipv6.2⟩

/-- The two flags of `ApiConfig` that choose the candidates. -/
structure CdnConfig where
  cdnForceIpv6 : Bool
  cdnIpv6Enabled : Bool

/-- `merged.entry(host).and_modify(..).or_insert(lat)` -/
def mergeKey [LinearOrder L] (map : List (String × L)) (e : String × L) : List (String × L) :=
  upsert e.1 (fun
    | none => e.2
    | some existing => if e.2 < existing then e.2 else existing) map

/-- `rank_candidates` -/
def rankCandidates [LinearOrder L] (hashOrder : HashOrder) (results : NetworkTestResults L)
    (cfg : CdnConfig) : Option (String × L) :=
  let candidates :=
    if cfg.cdnForceIpv6 then results.ipv6Latency
    else if cfg.cdnIpv6Enabled then
      (hashOrder.order results.ipv6Latency).foldl mergeKey results.ipv4Latency
    else results.ipv4Latency
  (hashOrder.order candidates).argmin Prod.snd

structure RankedHosts where
  fastestHost : String
  reachableIpv4Hosts : List String
  ipv4Addresses : List (String × String)

/-- `RankedHosts::try_load`, on the results of a test -/
def tryLoad [LinearOrder L] (hashOrder : HashOrder) (results : NetworkTestResults L)
    (cfg : CdnConfig) : Option RankedHosts :=
  (rankCandidates hashOrder results cfg).map fun fastest =>
    ⟨fastest.1, (hashOrder.order results.ipv4Addresses).map Prod.fst, results.ipv4Addresses⟩

/-! ## URLs -/

/-- A name of two or more labels that the URL library leaves as it is: lower-case letters, digits and
    hyphens, no label in Punycode, and a last label of letters. -/
def isOrdinary (host : String) : Bool :=
  let labels := host.toList.splitOn '.'
  (host.toList.all fun c => c.isLower || c.isDigit || c == '-' || c == '.') &&
    decide (2 ≤ labels.length) && (labels.all fun l => !l.isEmpty && !decide ("xn--".toList <+: l)) &&
    (labels.getLast?.getD []).all Char.isLower

/-- The URL library, with what it documents about hosts. -/
structure UrlLib where
  Url : Type
  parse : String → Option Url
  text : Url → String
  host : Url → Option String
  setHost : Url → String → Option Url
  /-- the text of a URL is read back as that URL -/
  parse_text : ∀ u, parse (text u) = some u
  /-- the last host set is the one that counts -/
  setHost_setHost : ∀ {u u' h h'}, setHost u h = some u' → setHost u' h' = setHost u h'
  /-- ordinary hosts are taken as they are -/
  setHost_ordinary : ∀ {u h}, (host u).isSome → isOrdinary h →
    ∃ u', setHost u h = some u' ∧ host u' = some h
  /-- so is a label of a host that was read before, in an ordinary domain -/
  setHost_label : ∀ {u u' h d}, host u = some h → isOrdinary d →
    setHost u (firstLabel h ++ "." ++ d) = some u' → host u' = some (firstLabel h ++ "." ++ d)

/-- `CdnMode` -/
inductive CdnMode where
  | auto
  | forceCloudflare
  | forceNumbered
  | forceLocation
deriving Repr, DecidableEq

/-- `is_rd_cdn_host` -/
def isRdCdnHost (host : String) : Bool :=
  endsWith host ".download.real-debrid.com" || endsWith host ".download.real-debrid.net" ||
    endsWith host ".download.real-debrid.cloud"

/-- `is_geo_prefixed` -/
def isGeoPrefixed (host : String) : Bool :=
  let pre := firstLabel host
  (pre.toList.head?.map Char.isAlpha).getD false && contains pre "-"

/-- `is_numbered_prefix` -/
def isNumberedPrefix (pre : String) : Bool := decide (pre ≠ "") && pre.toList.all Char.isDigit

/-- `pick_deterministic`: `hash` is the default hasher. -/
def pickDeterministic (hash : String → Nat) (seed : String) (candidates : List String) :
    Option String :=
  if candidates = [] then none else candidates[hash seed % candidates.length]?

/-- `pick_numbered_host` -/
def pickNumberedHost (hash : String → Nat) (currentHost : String) (reachable : List String) :
    Option String :=
  if isNumberedPrefix (firstLabel currentHost) && decide (currentHost ∈ reachable) then
    some currentHost
  else pickDeterministic hash currentHost (reachable.filter fun h => isNumberedPrefix (firstLabel h))

/-- `str::to_ascii_lowercase` -/
def toAsciiLowercase (s : List Char) : List Char := s.map Char.toLower

/-- `pick_location_host` -/
def pickLocationHost (hash : String → Nat) (currentHost loc : String) (reachable : List String) :
    Option String :=
  let loc := toAsciiLowercase (trim loc.toList)
  pickDeterministic hash currentHost
    (reachable.filter fun h => decide (loc <+: toAsciiLowercase (firstLabel h).toList))

/-- `rewrite_to_cloudflare` -/
def rewriteToCloudflare (lib : UrlLib) (parsed : lib.Url) : Option String := do
  let host ← lib.host parsed
  if endsWith host ".download.real-debrid.cloud" then none
  else
    let u ← lib.setHost parsed (firstLabel host ++ ".download.real-debrid.cloud")
    some (lib.text u)

/-- The host `rewrite_url` aims at, outside the Cloudflare mode. -/
def targetHost (hash : String → Nat) (ranked : RankedHosts) (host : String) (mode : CdnMode)
    (location : Option String) : Option String :=
  match mode with
  | .auto => if isGeoPrefixed host then none else some ranked.fastestHost
  | .forceCloudflare => none
  | .forceNumbered => pickNumberedHost hash host ranked.reachableIpv4Hosts
  | .forceLocation =>
    location.bind fun loc => pickLocationHost hash host loc ranked.reachableIpv4Hosts

/-- `RankedHosts::rewrite_url` -/
def rewriteUrl (lib : UrlLib) (hash : String → Nat) (ranked : RankedHosts) (downloadUrl : String)
    (mode : CdnMode) (location : Option String) : Option String := do
  let parsed ← lib.parse downloadUrl
  let host ← lib.host parsed
  if !isRdCdnHost host then none
  else if mode = .forceCloudflare then rewriteToCloudflare lib parsed
  else
    let target ← targetHost hash ranked host mode location
    if host = target then none
    else
      let u ← lib.setHost parsed target
      some (lib.text u)

/-! ## Where hosts come from -/

/-- A host of the list that passes the test at the entry. -/
def Accepted (text hostname : String) : Prop :=
  ∃ line ∈ lines text, ∃ ip, acceptLine line = some (hostname, ip)

theorem keys_upsert {α : Type} (key : String) (f : Option α → α) (map : List (String × α))
    (k : String) : k ∈ (upsert key f map).map Prod.fst ↔ k ∈ map.map Prod.fst ∨ k = key := by
  induction map with
  | nil => simp [upsert]
  | cons p map ih =>
    rw [upsert]
    split
    · rename_i hkey
      simp only [List.map_cons, List.mem_cons]
      rw [← hkey]
      tauto
    · simp only [List.map_cons, List.mem_cons, ih]
      tauto

theorem forall_upsert {α : Type} {P : String × α → Prop} {key : String} {f : Option α → α}
    (hnew : P (key, f none)) (hold : ∀ v, P (key, v) → P (key, f (some v)))
    {map : List (String × α)} (hmap : ∀ p ∈ map, P p) : ∀ p ∈ upsert key f map, P p := by
  induction map with
  | nil =>
    intro p hp
    rw [upsert, List.mem_singleton] at hp
    exact hp ▸ hnew
  | cons q map ih =>
    obtain ⟨hq, hmap⟩ := List.forall_mem_cons.mp hmap
    rw [upsert]
    split
    · rename_i hkey
      refine List.forall_mem_cons.mpr ⟨?_, hmap⟩
      subst hkey
      exact hold q.2 hq
    · exact List.forall_mem_cons.mpr ⟨hq, ih hmap⟩

/-- An entry has its key's name and an address. -/
def EntryOk (p : String × ServerEntry) : Prop :=
  p.2.hostname = p.1 ∧ (p.2.ipv4.isSome ∨ p.2.ipv6.isSome)

theorem setIp_ok {hostname ip : String} {e : ServerEntry} (h : e.hostname = hostname) :
    EntryOk (hostname, e.setIp ip) := by
  unfold ServerEntry.setIp
  split
  · exact ⟨h, Or.inr rfl⟩
  · exact ⟨h, Or.inl rfl⟩

theorem addLines_spec (accepted : List (String × String)) (map : List (String × ServerEntry))
    (hmap : ∀ p ∈ map, EntryOk p) :
    (∀ p ∈ accepted.foldl addLine map, EntryOk p) ∧
      ∀ k, k ∈ (accepted.foldl addLine map).map Prod.fst ↔
        k ∈ map.map Prod.fst ∨ k ∈ accepted.map Prod.fst := by
  induction accepted generalizing map with
  | nil => exact ⟨hmap, fun k => by simp⟩
  | cons line accepted ih =>
    have hstep : ∀ p ∈ addLine map line, EntryOk p :=
      forall_upsert (setIp_ok rfl) (fun e he => setIp_ok he.1) hmap
    obtain ⟨hok, hkeys⟩ := ih (addLine map line) hstep
    refine ⟨hok, fun k => ?_⟩
    rw [List.foldl_cons, hkeys, addLine, keys_upsert, List.map_cons, List.mem_cons, or_assoc]

/-- **The entries are the accepted hosts**, each with an address. -/
theorem fetchServerList_mem (hashOrder : HashOrder) (text : String) :
    (∀ e ∈ fetchServerList hashOrder text,
      Accepted text e.hostname ∧ (e.ipv4.isSome ∨ e.ipv6.isSome)) ∧
    ∀ hostname, Accepted text hostname →
      ∃ e ∈ fetchServerList hashOrder text, e.hostname = hostname := by
  obtain ⟨hok, hkeys⟩ := addLines_spec ((lines text).filterMap acceptLine) [] (by simp)
  have haccepted : ∀ hostname,
      hostname ∈ ((lines text).filterMap acceptLine).map Prod.fst ↔ Accepted text hostname := by
    intro hostname
    simp only [List.mem_map, List.mem_filterMap, Accepted]
    constructor
    · rintro ⟨⟨_, ip⟩, ⟨line, hline, hsome⟩, rfl⟩
      exact ⟨line, hline, ip, hsome⟩
    · rintro ⟨line, hline, ip, hsome⟩
      exact ⟨(hostname, ip), ⟨line, hline, hsome⟩, rfl⟩
  constructor
  · intro e he
    obtain ⟨p, hp, rfl⟩ := List.mem_map.mp he
    have hp' := (hashOrder.perm _).mem_iff.mp hp
    obtain ⟨hname, hip⟩ := hok p hp'
    refine ⟨?_, hip⟩
    rw [hname, ← haccepted]
    exact ((hkeys p.1).mp (List.mem_map_of_mem hp')).resolve_left (by simp)
  · intro hostname h
    have hkey := (hkeys hostname).mpr (Or.inr ((haccepted hostname).mpr h))
    obtain ⟨p, hp, rfl⟩ := List.mem_map.mp hkey
    exact ⟨p.2, List.mem_map_of_mem ((hashOrder.perm _).mem_iff.mpr hp), (hok p hp).1⟩

theorem probeStep_spec {latency : String → Option L}
    {maps : List (String × L) × List (String × String)} (e : String × String)
    (hmaps : ∀ p ∈ maps.1, latency p.1 = some p.2) :
    (∀ p ∈ (probeStep latency maps e).1, latency p.1 = some p.2) ∧
      (∀ k, k ∈ (probeStep latency maps e).1.map Prod.fst ↔
        k ∈ maps.1.map Prod.fst ∨ k = e.1 ∧ (latency k).isSome) ∧
      ∀ k ∈ (probeStep latency maps e).2.map Prod.fst, k ∈ maps.2.map Prod.fst ∨ k = e.1 := by
  unfold probeStep
  cases hlat : latency e.1 with
  | none =>
    refine ⟨hmaps, fun k => ⟨Or.inl, ?_⟩, fun k => Or.inl⟩
    rintro (hk | ⟨rfl, hsome⟩)
    · exact hk
    · rw [hlat] at hsome
      exact absurd hsome nofun
  | some lat =>
    refine ⟨forall_upsert hlat (fun _ _ => hlat) hmaps, fun k => ?_, fun k => ?_⟩
    · have hsome : k = e.1 ↔ k = e.1 ∧ (latency k).isSome :=
        ⟨fun hk => ⟨hk, by rw [hk, hlat]; rfl⟩, And.left⟩
      exact (keys_upsert e.1 (fun _ => lat) maps.1 k).trans (or_congr_right hsome)
    · exact (keys_upsert e.1 (fun _ => e.2) maps.2 k).mp

theorem probeFamily_spec (latency : String → Option L) (entries : List (String × String)) :
    (∀ p ∈ (probeFamily latency entries).1, latency p.1 = some p.2) ∧
      (∀ k, k ∈ (probeFamily latency entries).1.map Prod.fst ↔
        k ∈ entries.map Prod.fst ∧ (latency k).isSome) ∧
      ∀ k ∈ (probeFamily latency entries).2.map Prod.fst, k ∈ entries.map Prod.fst := by
  have hfold : ∀ maps : List (String × L) × List (String × String),
      (∀ p ∈ maps.1, latency p.1 = some p.2) →
      (∀ p ∈ (entries.foldl (probeStep latency) maps).1, latency p.1 = some p.2) ∧
        (∀ k, k ∈ (entries.foldl (probeStep latency) maps).1.map Prod.fst ↔
          k ∈ maps.1.map Prod.fst ∨ k ∈ entries.map Prod.fst ∧ (latency k).isSome) ∧
        ∀ k ∈ (entries.foldl (probeStep latency) maps).2.map Prod.fst,
          k ∈ maps.2.map Prod.fst ∨ k ∈ entries.map Prod.fst := by
    induction entries with
    | nil => exact fun maps hmaps => ⟨hmaps, fun k => by simp, fun k => Or.inl⟩
    | cons e entries ih =>
      intro maps hmaps
      obtain ⟨hlat, hkeys, haddr⟩ := probeStep_spec e hmaps
      obtain ⟨ihlat, ihkeys, ihaddr⟩ := ih _ hlat
      rw [List.foldl_cons]
      refine ⟨ihlat, fun k => ?_, fun k hk => ?_⟩
      · rw [ihkeys, hkeys, List.map_cons, List.mem_cons]
        tauto
      · rw [List.map_cons, List.mem_cons]
        obtain hk | hk := ihaddr k hk
        · exact (haddr k hk).imp_right Or.inl
        · exact Or.inr (Or.inr hk)
  obtain ⟨hlat, hkeys, haddr⟩ := hfold ([], []) (by simp)
  refine ⟨hlat, fun k => (hkeys k).trans ?_, fun k hk => (haddr k hk).resolve_left (by simp)⟩
  exact or_iff_right (by simp)

/-- Every host in the results of a test satisfies `P`. -/
def ResultsFrom (P : String → Prop) (results : NetworkTestResults L) : Prop :=
  (∀ k ∈ results.ipv4Latency.map Prod.fst, P k) ∧ (∀ k ∈ results.ipv6Latency.map Prod.fst, P k) ∧
    ∀ k ∈ results.ipv4Addresses.map Prod.fst, P k

theorem runLatencyTest_from {P : String → Prop} (latency4 latency6 : String → Option L)
    {entries : List ServerEntry} (h : ∀ e ∈ entries, P e.hostname) :
    ResultsFrom P (runLatencyTestOnEntries latency4 latency6 entries) := by
  have hpairs : ∀ (family : ServerEntry → Option String), ∀ k ∈
      (entries.filterMap fun e => (family e).map fun ip => (e.hostname, ip)).map Prod.fst, P k := by
    intro family k hk
    obtain ⟨p, hp, rfl⟩ := List.mem_map.mp hk
    obtain ⟨e, he, hsome⟩ := List.mem_filterMap.mp hp
    obtain ⟨ip, -, rfl⟩ := Option.map_eq_some_iff.mp hsome
    exact h e he
  obtain ⟨-, hkeys4, haddr4⟩ := probeFamily_spec latency4
    (entries.filterMap fun e => e.ipv4.map fun ip => (e.hostname, ip))
  obtain ⟨-, hkeys6, -⟩ := probeFamily_spec latency6
    (entries.filterMap fun e => e.ipv6.map fun ip => (e.hostname, ip))
  exact ⟨fun k hk => hpairs ServerEntry.ipv4 k ((hkeys4 k).mp hk).1,
    fun k hk => hpairs ServerEntry.ipv6 k ((hkeys6 k).mp hk).1,
    fun k hk => hpairs ServerEntry.ipv4 k (haddr4 k hk)⟩

theorem foldl_mergeKey_from [LinearOrder L] {P : String → Prop} (new map : List (String × L))
    (hnew : ∀ k ∈ new.map Prod.fst, P k) (hmap : ∀ k ∈ map.map Prod.fst, P k) :
    ∀ k ∈ (new.foldl mergeKey map).map Prod.fst, P k := by
  induction new generalizing map with
  | nil => exact hmap
  | cons e new ih =>
    rw [List.map_cons, List.forall_mem_cons] at hnew
    refine ih (mergeKey map e) hnew.2 fun k hk => ?_
    obtain hk | rfl := (keys_upsert _ _ _ k).mp hk
    · exact hmap k hk
    · exact hnew.1

/-- The pinned host and the reachable ones are hosts of the results. -/
theorem tryLoad_from [LinearOrder L] {P : String → Prop} {hashOrder : HashOrder}
    {results : NetworkTestResults L} {cfg : CdnConfig} {ranked : RankedHosts}
    (h : ResultsFrom P results)
    (hload : tryLoad hashOrder results cfg = some ranked) :
    P ranked.fastestHost ∧ ∀ k ∈ ranked.reachableIpv4Hosts, P k := by
  obtain ⟨fastest, hfastest, rfl⟩ := Option.map_eq_some_iff.mp hload
  obtain ⟨h4, h6, haddr⟩ := h
  have hmem := (hashOrder.perm _).mem_iff.mp (List.argmin_mem hfastest)
  refine ⟨?_, fun k hk => haddr k (((hashOrder.perm _).map Prod.fst).mem_iff.mp hk)⟩
  split at hmem
  · exact h6 _ (List.mem_map_of_mem hmem)
  · split at hmem
    · refine foldl_mergeKey_from _ _ (fun k hk => ?_) h4 _ (List.mem_map_of_mem hmem)
      exact h6 k (((hashOrder.perm _).map Prod.fst).mem_iff.mp hk)
    · exact h4 _ (List.mem_map_of_mem hmem)

/-! ## Where the new host comes from -/

theorem pickDeterministic_mem {hash : String → Nat} {seed target : String} {candidates : List String}
    (h : pickDeterministic hash seed candidates = some target) : target ∈ candidates := by
  unfold pickDeterministic at h
  split at h
  · exact absurd h nofun
  · exact List.mem_of_getElem? h

/-- The target is pinned, reachable, or the host the URL has already. -/
theorem targetHost_cases {hash : String → Nat} {ranked : RankedHosts} {host target : String}
    {mode : CdnMode} {location : Option String}
    (h : targetHost hash ranked host mode location = some target) :
    target = ranked.fastestHost ∨ target ∈ ranked.reachableIpv4Hosts ∨ target = host := by
  cases mode with
  | auto =>
    rw [targetHost] at h
    split at h
    · exact absurd h nofun
    · exact Or.inl (Option.some.inj h).symm
  | forceCloudflare => exact absurd h nofun
  | forceNumbered =>
    rw [targetHost, pickNumberedHost] at h
    split at h
    · exact Or.inr (Or.inr (Option.some.inj h).symm)
    · exact Or.inr (Or.inl (List.mem_filter.mp (pickDeterministic_mem h)).1)
  | forceLocation =>
    obtain ⟨loc, -, hpick⟩ := Option.bind_eq_some_iff.mp h
    exact Or.inr (Or.inl (List.mem_filter.mp (pickDeterministic_mem hpick)).1)

/-- A URL on a CDN host. -/
def CdnUrl (lib : UrlLib) (u : lib.Url) : Prop := ∃ host, lib.host u = some host ∧ isRdCdnHost host

/-- **What `rewrite_url` answers**: the old URL, which is on a CDN host, with the pinned host, with a
    reachable one, or moved to Cloudflare. -/
theorem rewriteUrl_cases {lib : UrlLib} {hash : String → Nat} {ranked : RankedHosts}
    {downloadUrl v : String} {mode : CdnMode} {location : Option String}
    (h : rewriteUrl lib hash ranked downloadUrl mode location = some v) :
    ∃ u u', v = lib.text u' ∧ CdnUrl lib u ∧
      ((∃ target, (target = ranked.fastestHost ∨ target ∈ ranked.reachableIpv4Hosts) ∧
        lib.setHost u target = some u') ∨
      ∃ host, lib.host u = some host ∧
        lib.setHost u (firstLabel host ++ ".download.real-debrid.cloud") = some u') := by
  obtain ⟨u, -, h⟩ := Option.bind_eq_some_iff.mp h
  obtain ⟨host, hhost, h⟩ := Option.bind_eq_some_iff.mp h
  by_cases hcdn : isRdCdnHost host
  · rw [hcdn, Bool.not_true, if_neg Bool.false_ne_true] at h
    split at h
    · obtain ⟨host', hhost', h⟩ := Option.bind_eq_some_iff.mp h
      split at h
      · exact absurd h nofun
      · obtain ⟨u', hset, h⟩ := Option.bind_eq_some_iff.mp h
        exact ⟨u, u', (Option.some.inj h).symm, ⟨host, hhost, hcdn⟩, Or.inr ⟨host', hhost', hset⟩⟩
    · obtain ⟨target, htarget, h⟩ := Option.bind_eq_some_iff.mp h
      split at h
      · exact absurd h nofun
      · rename_i hne
        obtain ⟨u', hset, h⟩ := Option.bind_eq_some_iff.mp h
        refine ⟨u, u', (Option.some.inj h).symm, ⟨host, hhost, hcdn⟩, Or.inl ⟨target, ?_, hset⟩⟩
        obtain hfast | hreach | hsame := targetHost_cases htarget
        · exact Or.inl hfast
        · exact Or.inr hreach
        · exact absurd hsame.symm hne
  · rw [Bool.eq_false_iff.mpr hcdn, Bool.not_false, if_pos rfl] at h
    exact absurd h nofun

/-- The automatic mode moves a URL on a host without a location to the pinned host. -/
theorem rewriteUrl_auto {lib : UrlLib} (hash : String → Nat) {ranked : RankedHosts} {u u' : lib.Url}
    {host : String} (location : Option String) (hhost : lib.host u = some host)
    (hcdn : isRdCdnHost host = true) (hgeo : isGeoPrefixed host = false)
    (hne : ¬host = ranked.fastestHost) (hset : lib.setHost u ranked.fastestHost = some u') :
    rewriteUrl lib hash ranked (lib.text u) .auto location = some (lib.text u') := by
  simp [rewriteUrl, targetHost, lib.parse_text, hhost, hcdn, hgeo, hne, hset]

theorem endsWith_append (s suf : String) : endsWith (s ++ suf) suf = true := by
  rw [endsWith, String.toList_append, decide_eq_true_eq]
  exact List.suffix_append _ _

theorem cloudflare_onCdn {lib : UrlLib} {u u' : lib.Url} {host : String}
    (hhost : lib.host u = some host)
    (hset : lib.setHost u (firstLabel host ++ ".download.real-debrid.cloud") = some u') :
    CdnUrl lib u' := by
  have hcut : firstLabel host ++ ".download.real-debrid.cloud" =
      firstLabel host ++ "." ++ "download.real-debrid.cloud" := by
    rw [String.append_assoc]
    rfl
  have hordinary : isOrdinary "download.real-debrid.cloud" := by decide
  have hkept := lib.setHost_label hhost hordinary (hcut ▸ hset)
  refine ⟨_, hkept, ?_⟩
  rw [← hcut, isRdCdnHost, endsWith_append, Bool.or_true]

/-! ## Staying on the CDN -/

/-- Every URL that `rewrite_url` answers is on a CDN host, whatever hosts the list, the latencies and
    the configuration make it choose from. -/
def StaysOnCdn (L : Type) [LinearOrder L] (lib : UrlLib) (hash : String → Nat) (text : String) :
    Prop :=
  ∀ (hashOrder : HashOrder) (latency4 latency6 : String → Option L) (cfg : CdnConfig)
    (ranked : RankedHosts) (downloadUrl v : String) (mode : CdnMode) (location : Option String),
    tryLoad hashOrder
      (runLatencyTestOnEntries latency4 latency6 (fetchServerList hashOrder text)) cfg = some ranked →
    rewriteUrl lib hash ranked downloadUrl mode location = some v →
    ∃ u, lib.parse v = some u ∧ CdnUrl lib u

/-- An accepted host that a URL of the CDN takes is a CDN host. -/
def AcceptedOnCdn (lib : UrlLib) (text : String) : Prop :=
  ∀ hostname, Accepted text hostname →
    ∀ u u', CdnUrl lib u → lib.setHost u hostname = some u' → CdnUrl lib u'

theorem stays_of_accepted [LinearOrder L] {lib : UrlLib} (hash : String → Nat) {text : String}
    (h : AcceptedOnCdn lib text) : StaysOnCdn L lib hash text := by
  intro hashOrder latency4 latency6 cfg ranked downloadUrl v mode location hload hrewrite
  have hentries := (fetchServerList_mem hashOrder text).1
  obtain ⟨hfast, hreach⟩ :=
    tryLoad_from (runLatencyTest_from latency4 latency6 fun e he => (hentries e he).1) hload
  obtain ⟨u, u', rfl, hu, hset⟩ := rewriteUrl_cases hrewrite
  refine ⟨u', lib.parse_text u', ?_⟩
  obtain ⟨target, rfl | hmem, hset⟩ | ⟨host, hhost, hset⟩ := hset
  · exact h _ hfast u u' hu hset
  · exact h target (hreach target hmem) u u' hu hset
  · exact cloudflare_onCdn hhost hset

/-- The only host that is measured fast is the one with the lowest latency. -/
theorem argmin_fast [LinearOrder L] {hashOrder : HashOrder} {latency : String → Option L}
    {hostname : String} {fast slow : L} (hlt : fast < slow)
    (hlatency : ∀ h, latency h = some (if h = hostname then fast else slow))
    {pool : List (String × L)} (hpool : ∀ p ∈ pool, latency p.1 = some p.2)
    (hmem : hostname ∈ pool.map Prod.fst) :
    ∃ l, (hashOrder.order pool).argmin Prod.snd = some (hostname, l) := by
  obtain ⟨p, hp, rfl⟩ := List.mem_map.mp hmem
  have hperm := hashOrder.perm pool
  cases hmin : (hashOrder.order pool).argmin Prod.snd with
  | none =>
    rw [List.argmin_eq_none.mp hmin] at hperm
    exact absurd (hperm.mem_iff.mpr hp) List.not_mem_nil
  | some m =>
    have hle : m.2 ≤ p.2 := List.le_of_mem_argmin (hperm.mem_iff.mpr hp) hmin
    have hm := hpool m (hperm.mem_iff.mp (List.argmin_mem hmin))
    have hp := hpool p hp
    rw [hlatency, if_pos rfl, Option.some.injEq] at hp
    rw [hlatency, Option.some.injEq] at hm
    by_cases hsame : m.1 = p.1
    · exact ⟨m.2, by rw [← hsame]⟩
    · rw [if_neg hsame] at hm
      rw [← hp, ← hm] at hle
      exact absurd hlt hle.not_gt

/-- Any accepted host gets pinned when it is the fastest. -/
theorem exists_pinned [LinearOrder L] [Nontrivial L] (hashOrder : HashOrder) {text hostname : String}
    (h : Accepted text hostname) :
    ∃ (latency : String → Option L) (cfg : CdnConfig) (ranked : RankedHosts),
      tryLoad hashOrder
        (runLatencyTestOnEntries latency latency (fetchServerList hashOrder text)) cfg = some ranked ∧
      ranked.fastestHost = hostname := by
  obtain ⟨fast, slow, hlt⟩ := exists_pair_lt L
  let latency : String → Option L := fun h => some (if h = hostname then fast else slow)
  obtain ⟨hentries, hhosts⟩ := fetchServerList_mem hashOrder text
  obtain ⟨e, he, rfl⟩ := hhosts hostname h
  have hkey : ∀ family : ServerEntry → Option String, (family e).isSome → e.hostname ∈
      ((fetchServerList hashOrder text).filterMap fun e => (family e).map fun ip =>
        (e.hostname, ip)).map Prod.fst := by
    intro family hsome
    obtain ⟨ip, hip⟩ := Option.isSome_iff_exists.mp hsome
    refine List.mem_map.mpr ⟨(e.hostname, ip), List.mem_filterMap.mpr ⟨e, he, ?_⟩, rfl⟩
    rw [hip]
    rfl
  have hprobe : ∀ family : ServerEntry → Option String, (family e).isSome →
      ∃ l, (hashOrder.order (probeFamily latency ((fetchServerList hashOrder text).filterMap fun e =>
        (family e).map fun ip => (e.hostname, ip))).1).argmin Prod.snd = some (e.hostname, l) := by
    intro family hsome
    obtain ⟨hlat, hkeys, -⟩ := probeFamily_spec latency
      ((fetchServerList hashOrder text).filterMap fun e => (family e).map fun ip => (e.hostname, ip))
    exact argmin_fast hlt (fun _ => rfl) hlat ((hkeys e.hostname).mpr ⟨hkey family hsome, rfl⟩)
  obtain hip | hip := (hentries e he).2
  · obtain ⟨l, hl⟩ := hprobe ServerEntry.ipv4 hip
    refine ⟨latency, ⟨false, false⟩, _, Option.map_eq_some_iff.mpr ⟨(e.hostname, l), hl, rfl⟩, rfl⟩
  · obtain ⟨l, hl⟩ := hprobe ServerEntry.ipv6 hip
    refine ⟨latency, ⟨true, false⟩, _, Option.map_eq_some_iff.mpr ⟨(e.hostname, l), hl, rfl⟩, rfl⟩

/-- **When rewritten URLs stay on the CDN**: exactly when every host that the list's test accepts, and
    that a URL takes as its host, ends with a CDN domain. -/
theorem rewrite_stays_on_cdn_iff [LinearOrder L] [Nontrivial L] (lib : UrlLib) (hash : String → Nat)
    (text : String) : StaysOnCdn L lib hash text ↔ AcceptedOnCdn lib text := by
  refine ⟨fun hstays hostname haccepted u u' hu hset => ?_, stays_of_accepted hash⟩
  obtain ⟨host, hhost, -⟩ := hu
  -- the same URL on a numbered host, which the automatic mode rewrites
  obtain ⟨u₁, hset₁, hhost₁⟩ := lib.setHost_ordinary (by rw [hhost]; rfl)
    (by decide : isOrdinary "1.download.real-debrid.com")
  by_cases hsame : "1.download.real-debrid.com" = hostname
  · rw [← hsame, hset₁] at hset
    obtain rfl := Option.some.inj hset
    exact ⟨_, hhost₁, by decide⟩
  · let hashOrder : HashOrder := ⟨fun entries => entries, fun entries => List.Perm.refl entries⟩
    obtain ⟨latency, cfg, ranked, hload, hpinned⟩ := exists_pinned (L := L) hashOrder haccepted
    have hset' : lib.setHost u₁ ranked.fastestHost = some u' := by
      rw [hpinned, lib.setHost_setHost hset₁]
      exact hset
    have hrewrite := rewriteUrl_auto hash none hhost₁ (by decide) (by decide) (hpinned ▸ hsame) hset'
    obtain ⟨u₂, hparse, hcdn⟩ := hstays hashOrder latency latency cfg ranked _ _ _ _ hload hrewrite
    rw [lib.parse_text] at hparse
    exact Option.some.inj hparse ▸ hcdn

/-! ## A list -/

/-- A host of lower-case letters, digits, hyphens and dots. -/
def isPlainHost (host : String) : Bool :=
  decide (host ≠ "") && host.toList.all fun c => c.isLower || c.isDigit || c == '-' || c == '.'

/-- `https` URLs with such a host. -/
structure HttpsUrl where
  host : String
  path : String
  plain : isPlainHost host = true

namespace HttpsUrl

def text (u : HttpsUrl) : String := "https://" ++ u.host ++ "/" ++ u.path

def parse (s : String) : Option HttpsUrl :=
  let rest := s.toList.drop 8
  let host := String.ofList (rest.takeWhile (· ≠ '/'))
  if startsWith s "https://" then
    if h : isPlainHost host then some ⟨host, String.ofList (rest.dropWhile (· ≠ '/')).tail, h⟩
    else none
  else none

def setHost (u : HttpsUrl) (host : String) : Option HttpsUrl :=
  if h : isPlainHost host then some ⟨host, u.path, h⟩ else none

theorem parse_text (u : HttpsUrl) : parse (text u) = some u := by
  obtain ⟨host, path, hplain⟩ := u
  have htext : (text ⟨host, path, hplain⟩).toList =
      "https://".toList ++ (host.toList ++ '/' :: path.toList) := by
    simp [text, String.toList_append]
  have hnoslash : ∀ c ∈ host.toList, decide (c ≠ '/') = true := by
    intro c hc
    have hall := (Bool.and_eq_true_iff.mp hplain).2
    have hchar := List.all_eq_true.mp hall c hc
    refine decide_eq_true fun hslash => ?_
    rw [hslash] at hchar
    exact absurd hchar (by decide)
  have hdrop : (text ⟨host, path, hplain⟩).toList.drop 8 = host.toList ++ '/' :: path.toList := by
    rw [htext]
    rfl
  have hhost : ((text ⟨host, path, hplain⟩).toList.drop 8).takeWhile (· ≠ '/') = host.toList := by
    rw [hdrop, List.takeWhile_append_of_pos hnoslash]
    simp
  have hpath : ((text ⟨host, path, hplain⟩).toList.drop 8).dropWhile (· ≠ '/') =
      '/' :: path.toList := by
    rw [hdrop, List.dropWhile_append_of_pos hnoslash]
    simp
  have hstart : startsWith (text ⟨host, path, hplain⟩) "https://" = true := by
    rw [startsWith, htext, decide_eq_true_eq]
    exact List.prefix_append _ _
  unfold parse
  simp only [hhost, hpath, hstart, String.ofList_toList, hplain, List.tail_cons, if_true, dite_true]

end HttpsUrl

/-- URLs of that kind keep the laws. -/
def httpsUrls : UrlLib where
  Url := HttpsUrl
  parse := HttpsUrl.parse
  text := HttpsUrl.text
  host u := some u.host
  setHost := HttpsUrl.setHost
  parse_text := HttpsUrl.parse_text
  setHost_setHost := by
    intro u u' h h' hset
    unfold HttpsUrl.setHost at hset ⊢
    split at hset
    · obtain rfl := Option.some.inj hset
      rfl
    · exact absurd hset nofun
  setHost_ordinary := by
    intro u h _ hordinary
    have hplain : isPlainHost h = true := by
      unfold isOrdinary at hordinary
      simp only [Bool.and_eq_true] at hordinary
      refine Bool.and_eq_true_iff.mpr ⟨?_, hordinary.1.1.1⟩
      refine decide_eq_true ?_
      rintro rfl
      exact absurd hordinary.1.1.2 (by decide)
    refine ⟨⟨h, u.path, hplain⟩, ?_, rfl⟩
    unfold HttpsUrl.setHost
    rw [dif_pos hplain]
  setHost_label := by
    intro u u' h d _ _ hset
    unfold HttpsUrl.setHost at hset
    split at hset
    · obtain rfl := Option.some.inj hset
      rfl
    · exact absurd hset nofun

theorem rewrite_stays_on_cdn_iff_numbered :
    StaysOnCdn ℕ httpsUrls String.length "53.download.real-debrid.com|5.6.7.8\n" := by
  refine (rewrite_stays_on_cdn_iff httpsUrls String.length _).mpr ?_
  rintro hostname ⟨line, hline, ip, haccept⟩ u u' hu hset
  have hlines : lines "53.download.real-debrid.com|5.6.7.8\n" =
      ["53.download.real-debrid.com|5.6.7.8".toList] := by decide
  rw [hlines, List.mem_singleton] at hline
  subst hline
  have hhost : acceptLine "53.download.real-debrid.com|5.6.7.8".toList =
      some ("53.download.real-debrid.com", "5.6.7.8") := by decide
  obtain ⟨rfl, -⟩ := Prod.ext_iff.mp (Option.some.inj (hhost.symm.trans haccept))
  obtain rfl := Option.some.inj hset
  exact ⟨_, rfl, (by decide : isRdCdnHost "53.download.real-debrid.com" = true)⟩

/-- A line of the list names a host of somebody else: it contains a CDN domain and is accepted, and a
    download from the CDN goes there with the token. -/
theorem accepted_host_leaves_cdn :
    ∃ (hashOrder : HashOrder) (latency : String → Option ℕ) (ranked : RankedHosts),
      tryLoad hashOrder (runLatencyTestOnEntries latency latency
        (fetchServerList hashOrder "1.download.real-debrid.com.evil.com|6.6.6.6\n")) ⟨false, true⟩ =
        some ranked ∧
      rewriteUrl httpsUrls String.length ranked "https://20.download.real-debrid.com/d/FILM" .auto
        none = some "https://1.download.real-debrid.com.evil.com/d/FILM" ∧
      ((httpsUrls.parse "https://1.download.real-debrid.com.evil.com/d/FILM").bind httpsUrls.host =
        some "1.download.real-debrid.com.evil.com") ∧
      isRdCdnHost "1.download.real-debrid.com.evil.com" = false := by
  let hashOrder : HashOrder := ⟨fun entries => entries, fun entries => List.Perm.refl entries⟩
  refine ⟨hashOrder, fun _ => some 1, ⟨"1.download.real-debrid.com.evil.com",
    ["1.download.real-debrid.com.evil.com"],
    [("1.download.real-debrid.com.evil.com", "6.6.6.6")]⟩, ?_, ?_, ?_, ?_⟩
  · rfl
  · decide
  · decide
  · decide

end RdRs.Rd
