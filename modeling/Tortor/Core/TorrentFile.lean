import Tortor.Core.BencodeTokens

/-! A torrent read from a .torrent file, and from the bytes of its info dictionary alone. -/

namespace Tortor.Core

structure RawTorrent where
  announce : String
  announceList : List (List String)
  info : RawInfo
  deriving DecidableEq

/-- `serde_bencode::from_bytes` at the two types it is used for. -/
structure BencodeDecoder where
  torrent : List UInt8 → Option RawTorrent
  info : List UInt8 → Option RawInfo

def isSupportedTracker (url : String) : Bool :=
  ["http://", "https://", "udp://"].any fun scheme => scheme.toList.isPrefixOf url.toList

structure AnnouncedMeta extends TorrentMeta where
  announce : String
  /-- Every distinct supported tracker, `announce` first. -/
  trackers : List String
  deriving DecidableEq

namespace AnnouncedMeta

def new (announce : String) (info : TorrentMeta) : AnnouncedMeta where
  toTorrentMeta := info
  announce := announce
  trackers := if isSupportedTracker announce then [announce] else []

/-- Unsupported schemes and duplicates are skipped. -/
def withExtraTrackers (self : AnnouncedMeta) (extra : List String) : AnnouncedMeta :=
  { self with
    trackers := extra.foldl (fun trackers url =>
      if isSupportedTracker url && !trackers.contains url then trackers ++ [url] else trackers)
      self.trackers }

end AnnouncedMeta

def INFO_KEY : List UInt8 := [0x69, 0x6e, 0x66, 0x6f]

def extractLoop (bytes : List UInt8) : Nat → Nat → Except TorrentParseError (List UInt8)
  | 0, _ => .error .missingInfoDictionary
  | fuel + 1, index =>
    match bytes[index]? with
    | none => .error .missingInfoDictionary
    | some byte =>
      if byte = 0x65 then .error .missingInfoDictionary
      else match parseByteString bytes index with
        | .error error => .error error
        | .ok (key, valueStart) =>
          match skipBencodeValue bytes (2 * bytes.length + 2) valueStart 0 with
          | .error error => .error error
          | .ok valueEnd =>
            if key = INFO_KEY then .ok (slice bytes valueStart valueEnd)
            else extractLoop bytes fuel valueEnd

def extractInfoDictionarySlice (bytes : List UInt8) : Except TorrentParseError (List UInt8) :=
  if bytes.head? ≠ some 0x64 then
    .error (.invalidBencode "top-level value must be a dictionary")
  else extractLoop bytes bytes.length 1

def parseTorrentMetadataBytes (decoder : BencodeDecoder) (sha1 : List UInt8 → Digest)
    (windows : Bool) (infoBytes : List UInt8) (expectedInfoHash : Digest) :
    Except TorrentParseError AnnouncedMeta := do
  if MAX_TORRENT_SIZE < infoBytes.length then throw (.invalidBencode "metadata is too large")
  if sha1 infoBytes ≠ expectedInfoHash then throw (.invalidBencode "SHA-1 mismatch for metadata")
  checkBencodeDepth infoBytes
  let rawInfo ← match decoder.info infoBytes with
    | some rawInfo => pure rawInfo
    | none => throw .decode
  -- No announce URL in metadata
  return .new "" (← buildMeta windows rawInfo (sha1 infoBytes))

def parseTorrentBytes (decoder : BencodeDecoder) (sha1 : List UInt8 → Digest) (windows : Bool)
    (bytes : List UInt8) : Except TorrentParseError AnnouncedMeta := do
  if MAX_TORRENT_SIZE < bytes.length then throw (.invalidBencode "torrent file is too large")
  checkBencodeDepth bytes
  let raw ← match decoder.torrent bytes with
    | some raw => pure raw
    | none => throw .decode
  let infoSlice ← extractInfoDictionarySlice bytes
  return (AnnouncedMeta.new raw.announce
    (← buildMeta windows raw.info (sha1 infoSlice))).withExtraTrackers raw.announceList.flatten

inductive Entries (bytes : List UInt8) : Nat → List (List UInt8 × List UInt8) → Prop
  | done {index : Nat} : bytes[index]? = some 0x65 → Entries bytes index []
  | entry {index valueStart valueEnd : Nat} {key : List UInt8}
      {entries : List (List UInt8 × List UInt8)} :
      parseByteString bytes index = .ok (key, valueStart) →
      skipBencodeValue bytes (2 * bytes.length + 2) valueStart 0 = .ok valueEnd →
      Entries bytes valueEnd entries →
      Entries bytes index ((key, slice bytes valueStart valueEnd) :: entries)

namespace BencodeDecoder

/-- The decoder delimits values as the skipper does, takes one value for `info` and decodes it as
it decodes it standing alone. -/
def Lawful (decoder : BencodeDecoder) : Prop :=
  ∀ bytes raw, decoder.torrent bytes = some raw → checkBencodeDepth bytes = .ok () →
    ∃ entries value, Entries bytes 1 entries ∧
      entries.filter (fun entry => entry.1 = INFO_KEY) = [(INFO_KEY, value)] ∧
      decoder.info value = some raw.info

/-- The piece hashes are no longer than the bytes they have been read from. -/
structure Bounded (decoder : BencodeDecoder) : Prop where
  torrent : ∀ bytes raw, decoder.torrent bytes = some raw →
    raw.info.pieces.length ≤ bytes.length
  info : ∀ bytes raw, decoder.info bytes = some raw → raw.pieces.length ≤ bytes.length

end BencodeDecoder

theorem spelled_of_extractLoop {bytes found : List UInt8} {fuel index : Nat}
    (h : extractLoop bytes fuel index = .ok found) :
    ∃ start stop, Spelled bytes index start ∧ Spelled bytes start stop ∧
      found = slice bytes start stop := by
  induction fuel generalizing index with
  | zero => cases h
  | succ fuel ih =>
    rw [extractLoop] at h
    split at h
    · cases h
    split at h
    · cases h
    split at h
    · cases h
    case h_2 key valueStart hkey =>
      split at h
      · cases h
      case h_2 valueEnd hvalue =>
        have hpre := spelled_byteString hkey
        have hspelled := (spelled_of_skip bytes _).1 _ _ _ hvalue
        split at h
        · cases h
          exact ⟨valueStart, valueEnd, hpre, hspelled, rfl⟩
        · obtain ⟨start, stop, hrest, hfound, he⟩ := ih h
          exact ⟨start, stop, (hpre.trans hspelled).trans hrest, hfound, he⟩

/-- What is found is the value of an entry that the decoder sees too. -/
theorem mem_entries_of_extractLoop {bytes found : List UInt8} {index : Nat}
    {entries : List (List UInt8 × List UInt8)} (hentries : Entries bytes index entries)
    {fuel : Nat} (h : extractLoop bytes fuel index = .ok found) : (INFO_KEY, found) ∈ entries := by
  induction hentries generalizing fuel with
  | done hend =>
    cases fuel with
    | zero => cases h
    | succ fuel =>
      rw [extractLoop, hend] at h
      cases h
  | entry hkey hvalue _ ih =>
    cases fuel with
    | zero => cases h
    | succ fuel =>
      rw [extractLoop] at h
      split at h
      · cases h
      split at h
      · cases h
      rw [hkey] at h
      simp only [hvalue] at h
      split at h
      case isTrue hinfo =>
        cases h
        rw [hinfo]
        exact List.mem_cons_self
      case isFalse => exact List.mem_cons_of_mem _ (ih h)

theorem parseTorrentBytes_ok {decoder : BencodeDecoder} {sha1 : List UInt8 → Digest}
    {windows : Bool} {bytes : List UInt8} {info : AnnouncedMeta}
    (h : parseTorrentBytes decoder sha1 windows bytes = .ok info) :
    ∃ raw infoSlice, bytes.length ≤ MAX_TORRENT_SIZE ∧ checkBencodeDepth bytes = .ok () ∧
      decoder.torrent bytes = some raw ∧ extractInfoDictionarySlice bytes = .ok infoSlice ∧
      buildMeta windows raw.info (sha1 infoSlice) = .ok info.toTorrentMeta := by
  simp only [parseTorrentBytes, bind, Except.bind, pure, Except.pure, throw, throwThe,
    MonadExceptOf.throw] at h
  split at h
  · cases h
  case isFalse hsize =>
  split at h
  · cases h
  case h_2 hdepth =>
  cases hraw : decoder.torrent bytes with
  | none => rw [hraw] at h; cases h
  | some raw =>
    simp only [hraw] at h
    split at h
    · cases h
    case h_2 infoSlice hslice =>
      split at h
      · cases h
      case h_2 hbuilt =>
        cases h
        exact ⟨raw, infoSlice, Nat.not_lt.mp hsize, hdepth, rfl, hslice, hbuilt⟩

theorem parseTorrentMetadataBytes_eq {decoder : BencodeDecoder} {sha1 : List UInt8 → Digest}
    {windows : Bool} {infoBytes : List UInt8} {raw : RawInfo} {info : TorrentMeta}
    (hsize : infoBytes.length ≤ MAX_TORRENT_SIZE) (hdepth : checkBencodeDepth infoBytes = .ok ())
    (hraw : decoder.info infoBytes = some raw)
    (hbuilt : buildMeta windows raw (sha1 infoBytes) = .ok info) :
    parseTorrentMetadataBytes decoder sha1 windows infoBytes (sha1 infoBytes) =
      .ok (.new "" info) := by
  simp [parseTorrentMetadataBytes, Nat.not_lt.mpr hsize, hdepth, hraw, hbuilt, bind, Except.bind,
    pure, Except.pure]

theorem infoHash_of_buildMeta {windows : Bool} {raw : RawInfo} {infoHash : Digest}
    {info : TorrentMeta} (h : buildMeta windows raw infoHash = .ok info) :
    info.infoHash = infoHash := by
  obtain ⟨_, _, -, -, -, -, -, -, -, rfl⟩ := buildMeta_ok h
  rfl

theorem parseTorrentMetadataBytes_ok {decoder : BencodeDecoder} {sha1 : List UInt8 → Digest}
    {windows : Bool} {infoBytes : List UInt8} {expectedInfoHash : Digest} {info : AnnouncedMeta}
    (h : parseTorrentMetadataBytes decoder sha1 windows infoBytes expectedInfoHash = .ok info) :
    ∃ raw, infoBytes.length ≤ MAX_TORRENT_SIZE ∧ checkBencodeDepth infoBytes = .ok () ∧
      decoder.info infoBytes = some raw ∧
      buildMeta windows raw (sha1 infoBytes) = .ok info.toTorrentMeta := by
  simp only [parseTorrentMetadataBytes, bind, Except.bind, pure, Except.pure, throw, throwThe,
    MonadExceptOf.throw] at h
  split at h
  · cases h
  case isFalse hsize =>
  split at h
  · cases h
  split at h
  · cases h
  case h_2 hdepth =>
  cases hraw : decoder.info infoBytes with
  | none => rw [hraw] at h; cases h
  | some raw =>
    simp only [hraw] at h
    split at h
    · cases h
    case h_2 hbuilt =>
      cases h
      exact ⟨raw, Nat.not_lt.mp hsize, hdepth, rfl, hbuilt⟩

/-- The slice the info hash is taken over is short, passes the check on the depth and is what the
decoder takes `info` from. -/
theorem infoSlice_of_torrent {decoder : BencodeDecoder} (hlawful : decoder.Lawful)
    {bytes infoSlice : List UInt8} {raw : RawTorrent} (hsize : bytes.length ≤ MAX_TORRENT_SIZE)
    (hdepth : checkBencodeDepth bytes = .ok ()) (hraw : decoder.torrent bytes = some raw)
    (hslice : extractInfoDictionarySlice bytes = .ok infoSlice) :
    infoSlice.length ≤ MAX_TORRENT_SIZE ∧ checkBencodeDepth infoSlice = .ok () ∧
      decoder.info infoSlice = some raw.info := by
  obtain ⟨entries, value, hentries, honly, hvalue⟩ :=
    hlawful bytes raw hraw hdepth
  unfold extractInfoDictionarySlice at hslice
  split at hslice
  · cases hslice
  case isFalse hdict =>
    rw [Decidable.not_not, List.head?_eq_getElem?] at hdict
    -- the entry that is found is the one the decoder takes
    obtain rfl : infoSlice = value := by
      have hmem : (INFO_KEY, infoSlice) ∈ entries.filter (fun entry => entry.1 = INFO_KEY) :=
        List.mem_filter.mpr ⟨mem_entries_of_extractLoop hentries hslice, by simp⟩
      rw [honly, List.mem_singleton] at hmem
      exact congrArg Prod.snd hmem
    obtain ⟨start, stop, hpre, hspelled, hcut⟩ := spelled_of_extractLoop hslice
    have hle := hspelled.le_length
    refine ⟨?_, ?_, hvalue⟩
    · rw [hcut, length_slice hle]
      omega
    · rw [hcut]
      refine checkBencodeDepth_slice ?_ hdepth ((spelled_byte hdict .dict).trans hpre) hspelled
      unfold MAX_TORRENT_SIZE at hsize
      omega

/-- The slice that the info hash of a .torrent file is taken over gives the same torrent when it
comes from peers. -/
theorem torrent_and_magnet_agree {decoder : BencodeDecoder} (hlawful : decoder.Lawful)
    {sha1 : List UInt8 → Digest} {windows : Bool} {bytes : List UInt8} {info : AnnouncedMeta}
    (h : parseTorrentBytes decoder sha1 windows bytes = .ok info) :
    ∃ infoSlice, extractInfoDictionarySlice bytes = .ok infoSlice ∧
      sha1 infoSlice = info.infoHash ∧ checkBencodeDepth infoSlice = .ok () ∧
      ∃ fromPeers, parseTorrentMetadataBytes decoder sha1 windows infoSlice info.infoHash =
        .ok fromPeers ∧ fromPeers.toTorrentMeta = info.toTorrentMeta := by
  obtain ⟨raw, infoSlice, hsize, hdepth, hraw, hslice, hbuilt⟩ := parseTorrentBytes_ok h
  obtain ⟨hshort, hpasses, hinfo⟩ := infoSlice_of_torrent hlawful hsize hdepth hraw hslice
  have hhash : info.infoHash = sha1 infoSlice := infoHash_of_buildMeta hbuilt
  refine ⟨infoSlice, hslice, hhash.symm, hpasses, .new "" info.toTorrentMeta, ?_, rfl⟩
  rw [hhash]
  exact parseTorrentMetadataBytes_eq hshort hpasses hinfo hbuilt

def ascii (text : String) : List UInt8 := text.toList.map fun c => UInt8.ofNat c.toNat

def fiveBytesInfo : List UInt8 :=
  ascii "d6:lengthi5e4:name1:a12:piece lengthi16384e6:pieces20:12345678901234567890e"

def fiveBytes : List UInt8 := ascii "d4:info" ++ fiveBytesInfo ++ ascii "e"

def fiveBytesRaw : RawInfo where
  name := "a"
  pieceLength := 16384
  pieces := ascii "12345678901234567890"
  length := some 5
  files := none

def fiveBytesDecoder : BencodeDecoder where
  torrent bytes := if bytes = fiveBytes then some ⟨"", [], fiveBytesRaw⟩ else none
  info bytes := if bytes = fiveBytesInfo then some fiveBytesRaw else none

def fiveBytesHash : Digest :=
  ⟨[0x76, 0xfe, 0x1f, 0x26, 0x4a, 0xaf, 0x4a, 0x41, 0xec, 0x21, 0x97, 0x03, 0xa2, 0x9a, 0xef,
    0x2f, 0x16, 0x0d, 0x59, 0xb9], rfl⟩

theorem lawful_fiveBytesDecoder : fiveBytesDecoder.Lawful := by
  intro bytes raw h _
  simp only [fiveBytesDecoder] at h
  split at h
  case isTrue hbytes =>
    subst hbytes
    cases h
    have hskip : skipBencodeValue fiveBytes (2 * fiveBytes.length + 2) 7 0 = .ok 82 := by
      decide +kernel
    have hentries : Entries fiveBytes 1 [(INFO_KEY, slice fiveBytes 7 82)] :=
      .entry (by decide +kernel) hskip (.done (by decide +kernel))
    exact ⟨_, slice fiveBytes 7 82, hentries, by decide, by decide +kernel⟩
  · cases h

theorem bounded_fiveBytesDecoder : fiveBytesDecoder.Bounded where
  torrent bytes raw h := by
    simp only [fiveBytesDecoder] at h
    split at h
    case isTrue hbytes =>
      subst hbytes
      cases h
      decide +kernel
    · cases h
  info bytes raw h := by
    simp only [fiveBytesDecoder] at h
    split at h
    case isTrue hbytes =>
      subst hbytes
      cases h
      decide +kernel
    · cases h

theorem parse_fiveBytes :
    parseTorrentBytes fiveBytesDecoder (fun _ => fiveBytesHash) false fiveBytes =
      .ok (.new "" (.new "a" 16384 1 (digests fiveBytesRaw.pieces) (some 5) none fiveBytesHash)) := by
  decide +kernel

theorem torrent_and_magnet_agree_fiveBytes :
    ∃ info infoSlice, extractInfoDictionarySlice fiveBytes = .ok infoSlice ∧
      info.infoHash = fiveBytesHash ∧ checkBencodeDepth infoSlice = .ok () ∧
      ∃ fromPeers, parseTorrentMetadataBytes fiveBytesDecoder (fun _ => fiveBytesHash) false
        infoSlice info.infoHash = .ok fromPeers ∧ fromPeers.toTorrentMeta = info := by
  obtain ⟨infoSlice, hslice, -, hdepth, fromPeers, hparsed, he⟩ :=
    torrent_and_magnet_agree lawful_fiveBytesDecoder parse_fiveBytes
  exact ⟨_, infoSlice, hslice, rfl, hdepth, fromPeers, hparsed, he⟩

end Tortor.Core
