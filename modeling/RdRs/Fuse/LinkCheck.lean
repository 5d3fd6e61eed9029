/-
  The corrupted-link test of `fuse/read.rs`, with what it reads: `unrestrict_link`'s `Download`
  (`rd/api/methods2.rs`), the shortened URL in it (`extract_base_download_url`) and the extension of
  that URL (`Download::extension`).

  The test asks for a mismatch of the sizes AND of the extensions.  The second is read from the URL
  after its file name is gone:

  * `extension_base` — what is left of `scheme://host/d/CODE/NAME.ext` has no extension;
  * `unrestrictLink_made` — every `Download` that `unrestrict_link` returns is shortened;
  * `link_stands_iff_sizes` — so the test fires by the sizes alone.
-/
import RdRs.Rd.Cdn
import RdRs.Fuse.Resolve
import RdRs.Cache.Paths

set_option linter.unusedVariables false

namespace RdRs.Rd

/-! ## The shortened URL -/

/-- `str::find`, as a number of characters. -/
def find (pat : List Char) : List Char → Option Nat
  | [] => if pat = [] then some 0 else none
  | c :: cs => if pat <+: c :: cs then some 0 else (find pat cs).map (· + 1)

/-- `extract_base_download_url` -/
def extractBaseDownloadUrl (url : String) : String :=
  match find ['/', 'd', '/'] url.toList with
  | some idx =>
    let hashStart := idx + 3
    match (url.toList.drop hashStart).findIdx? (· = '/') with
    | some slash => String.ofList (url.toList.take (hashStart + slash))
    | none => url
  | none => url

/-- `Download`, the fields the test reads. -/
structure Download where
  filesize : Int
  download : String
  token : String
deriving DecidableEq

/-- What `unrestrict_link` makes of a response. -/
def Download.fromResponse (token : String) (d : Download) : Download :=
  { d with token := token, download := extractBaseDownloadUrl d.download }

/-- What holds of the cached values and of every value made from a response holds of what
    `unrestrict_link` returns.  Each round uses up answers. -/
theorem unrestrictLink_ok {D : Type} {cfg : ClientConfig} {cached : String → Option D}
    {download : String → Response → Except RdError D} {P : D → Prop}
    (hcached : ∀ token d, cached token = some d → P d)
    (hmade : ∀ token r d, download token r = .ok d → P d) (answers : List Answer)
    (last : Option RdError) (pool : TokenPool) {d : D}
    (h : unrestrictLink cfg cached download last pool answers = some (.ok d)) : P d := by
  induction hn : answers.length using Nat.strong_induction_on generalizing answers last pool with
  | _ n ih =>
    rw [unrestrictLink.eq_def] at h
    split at h
    · exact absurd (Option.some.inj h) (by simp)
    · rename_i token rest htokens
      split at h
      · rename_i d' hd'
        obtain rfl := Except.ok.inj (Option.some.inj h)
        exact hcached token d' hd'
      · split at h
        · exact absurd h (by simp)
        · rename_i reply hreply
          split at h
          · exact hmade token _ d (Option.some.inj h)
          · split at h
            · have hless := executeLoop_rest answers _ reply hreply
              exact ih reply.rest.length (hn ▸ hless) reply.rest _ _ h rfl
            · exact absurd (Option.some.inj h) (by simp)

/-- **What `unrestrict_link` returns was made from a response**, now or when it was cached. -/
theorem unrestrictLink_made {cfg : ClientConfig} {cached : String → Option Download}
    {parse : Response → Except RdError Download} {answers : List Answer} {last : Option RdError}
    {pool : TokenPool} {d : Download}
    (hcached : ∀ token d, cached token = some d → ∃ t r, d = Download.fromResponse t r)
    (h : unrestrictLink cfg cached (fun token r => (parse r).map (Download.fromResponse token)) last
      pool answers = some (.ok d)) : ∃ t r, d = Download.fromResponse t r := by
  refine unrestrictLink_ok hcached (fun token r d hd => ?_) answers last pool h
  cases hp : parse r with
  | error e =>
    rw [hp] at hd
    exact absurd hd (by simp [Except.map])
  | ok d' =>
    rw [hp] at hd
    exact ⟨token, d', (Except.ok.inj hd).symm⟩

/-! ### Where the code path is found -/

theorem find_of_prefix {pat cs : List Char} (h : pat <+: cs) : find pat cs = some 0 := by
  cases cs with
  | nil => rw [find, if_pos (List.prefix_nil.mp h)]
  | cons c cs => rw [find, if_pos h]

theorem find_cons {pat cs : List Char} {c : Char} (h : ¬pat <+: c :: cs) :
    find pat (c :: cs) = (find pat cs).map (· + 1) := by
  rw [find, if_neg h]

/-- Text without the pattern's first character is passed over. -/
theorem find_append {p : Char} {pat : List Char} : ∀ (s t : List Char), p ∉ s →
    find (p :: pat) (s ++ t) = (find (p :: pat) t).map (· + s.length)
  | [], t, _ => by
    rw [List.nil_append]
    cases find (p :: pat) t <;> rfl
  | c :: s, t, h => by
    have hc : ¬p :: pat <+: c :: (s ++ t) := by
      rw [List.cons_prefix_cons]
      exact fun h' => h (h'.1 ▸ List.mem_cons_self)
    rw [List.cons_append, find_cons hc, find_append s t fun h' => h (List.mem_cons_of_mem c h'),
      Option.map_map]
    rfl

/-- The URL up to and with the segment behind the first `/d/`. -/
theorem extractBase_of_find {url : String} {before seg rest : List Char}
    (hurl : url.toList = before ++ ['/', 'd', '/'] ++ seg ++ '/' :: rest) (hseg : '/' ∉ seg)
    (hfind : find ['/', 'd', '/'] url.toList = some before.length) :
    extractBaseDownloadUrl url = String.ofList (before ++ ['/', 'd', '/'] ++ seg) := by
  have hlen : (before ++ ['/', 'd', '/']).length = before.length + 3 := by simp
  have hdrop : url.toList.drop (before.length + 3) = seg ++ '/' :: rest := by
    rw [hurl, List.append_assoc (before ++ _), ← hlen, List.drop_left]
  have hslash : (seg ++ '/' :: rest).findIdx? (· = '/') = some seg.length := by
    rw [List.findIdx?_append, List.findIdx?_eq_none_iff.mpr fun c hc => ?_]
    · rw [List.findIdx?_cons]
      simp
    · rw [decide_eq_false_iff_not]
      rintro rfl
      exact hseg hc
  have htake : url.toList.take (before.length + 3 + seg.length)
      = before ++ ['/', 'd', '/'] ++ seg := by
    rw [hurl, ← hlen, ← List.length_append, List.take_left]
  simp only [extractBaseDownloadUrl, hfind, hdrop, hslash, htake]

/-- The first `/d/` of `scheme://host/d/…` is the one behind the host, unless the host is `d`. -/
theorem find_code_path {scheme host : List Char} (hscheme : '/' ∉ scheme) (hhost : '/' ∉ host)
    (hd : host ≠ ['d']) (rest : List Char) :
    find ['/', 'd', '/'] (scheme ++ [':', '/', '/'] ++ host ++ ['/', 'd', '/'] ++ rest)
      = some (scheme ++ [':', '/', '/'] ++ host).length := by
  have hslash : ¬['/', 'd', '/'] <+: '/' :: (host ++ (['/', 'd', '/'] ++ rest)) := by
    rw [List.cons_prefix_cons]
    rintro ⟨-, h⟩
    match host, hhost, hd, h with
    | [], _, _, h => exact absurd h (by simp)
    | [c], _, hd, h =>
      have hc := (List.cons_prefix_cons.mp h).1
      exact hd (by rw [hc])
    | c :: c' :: _, hhost, _, h =>
      have hc' := (List.cons_prefix_cons.mp (List.cons_prefix_cons.mp h).2).1
      exact hhost (hc' ▸ by simp)
  have hfirst : find ['/', 'd', '/'] (['/', 'd', '/'] ++ rest) = some 0 :=
    find_of_prefix (List.prefix_append _ _)
  have htext : scheme ++ [':', '/', '/'] ++ host ++ ['/', 'd', '/'] ++ rest
      = scheme ++ ':' :: '/' :: '/' :: (host ++ (['/', 'd', '/'] ++ rest)) := by simp
  rw [htext, find_append _ _ hscheme, find_cons (by simp), find_cons (by simp), find_cons hslash,
    find_append _ _ hhost, hfirst]
  simp only [Option.map_some, List.length_append, List.length_cons, List.length_nil,
    Option.some.injEq]
  omega

/-- A host that is `d` is taken for the path. -/
theorem find_code_path_d {scheme : List Char} (hscheme : '/' ∉ scheme) (rest : List Char) :
    find ['/', 'd', '/'] (scheme ++ [':', '/'] ++ ['/', 'd', '/'] ++ rest)
      = some (scheme ++ [':', '/']).length := by
  have htext : scheme ++ [':', '/'] ++ ['/', 'd', '/'] ++ rest
      = scheme ++ ':' :: '/' :: (['/', 'd', '/'] ++ rest) := by simp
  rw [htext, find_append _ _ hscheme, find_cons (by simp), find_cons (by simp),
    find_of_prefix (List.prefix_append _ _)]
  simp only [Option.map_some, List.length_append, List.length_cons, List.length_nil,
    Option.some.injEq]
  omega

end RdRs.Rd

namespace RdRs.Fuse

open RdRs.Rd
open RdRs.Cache (components components_slash IsName)

/-! ## The extension -/

/-- `Path::extension`: what stands behind the last dot of the file name, unless nothing stands
    before it. -/
def extension (path : String) : Option String :=
  match fileName path with
  | none => none
  | some name =>
    match name.toList.reverse.dropWhile (· ≠ '.') with
    | [] => none
    | _ :: before =>
      if before = [] then none
      else some (String.ofList (name.toList.reverse.takeWhile (· ≠ '.')).reverse)

/-- `Download::extension` -/
def downloadExtension (d : Download) : Option String := extension d.download

theorem fileName_eq (path : String) :
    fileName path = match (components path).getLast? with
      | none => none
      | some c => if c = ".." then none else some c := by
  rw [fileName, components, List.getLast?_map]
  cases ((path.toList.splitOn '/').filter fun c => c ≠ [] ∧ c ≠ ['.']).getLast? with
  | none => rfl
  | some c =>
    have hdots : c = ['.', '.'] ↔ String.ofList c = ".." := by
      constructor
      · rintro rfl
        rfl
      · intro h
        rw [← String.toList_ofList (l := c), h]
        rfl
    simp only [Option.map_some, hdots]

/-- A name without a dot has no extension. -/
theorem extension_of_no_dot {path : String} (name : String) (hname : fileName path = some name)
    (hdot : '.' ∉ name.toList) : extension path = none := by
  have hnil : name.toList.reverse.dropWhile (· ≠ '.') = [] := by
    rw [List.dropWhile_eq_nil_iff]
    intro c hc
    rw [decide_eq_true_eq]
    rintro rfl
    exact hdot (List.mem_reverse.mp hc)
  simp only [extension, hname, hnil]

/-- The text `before/d/seg` has no extension when `seg` has no dot. -/
theorem extension_code {before seg : String} (hslash : '/' ∉ seg.toList) (hdot : '.' ∉ seg.toList) :
    extension (before ++ "/" ++ "d" ++ "/" ++ seg) = none := by
  have hd : components "d" = ["d"] := by decide
  by_cases hempty : seg = ""
  · -- then `d` is the last component
    refine extension_of_no_dot "d" ?_ (by decide)
    subst hempty
    rw [fileName_eq, components_slash, components_slash, hd]
    simp [components]
  · have hne : seg ≠ "." := by
      rintro rfl
      exact hdot (by decide)
    have hup : seg ≠ ".." := by
      rintro rfl
      exact hdot (by decide)
    refine extension_of_no_dot seg ?_ hdot
    rw [fileName_eq, components_slash, IsName.components_eq ⟨hslash, hempty, hne⟩,
      List.getLast?_append]
    simp [hup]

/-- **The shortened URL has no extension.** -/
theorem extension_base {scheme host code rest : String} (hscheme : '/' ∉ scheme.toList)
    (hhost : '/' ∉ host.toList) (hslash : '/' ∉ code.toList) (hdot : '.' ∉ code.toList) :
    extension (extractBaseDownloadUrl (scheme ++ "://" ++ host ++ "/d/" ++ code ++ "/" ++ rest))
      = none := by
  have hurl : (scheme ++ "://" ++ host ++ "/d/" ++ code ++ "/" ++ rest).toList
      = scheme.toList ++ [':', '/', '/'] ++ host.toList ++ ['/', 'd', '/']
        ++ (code.toList ++ '/' :: rest.toList) := by
    simp
  -- the shortened text, as a string that ends in `/d/` and a segment
  have htext : ∀ (before : List Char) (seg : String),
      String.ofList (before ++ ['/', 'd', '/'] ++ seg.toList)
        = String.ofList before ++ "/" ++ "d" ++ "/" ++ seg := by
    intro before seg
    rw [← String.toList_inj]
    simp
  by_cases hd : host.toList = ['d']
  · have hurl' : (scheme ++ "://" ++ host ++ "/d/" ++ code ++ "/" ++ rest).toList
        = scheme.toList ++ [':', '/'] ++ ['/', 'd', '/'] ++ "d".toList
          ++ '/' :: (code.toList ++ '/' :: rest.toList) := by
      rw [hurl, hd]
      simp
    have hfind := find_code_path_d hscheme ("d".toList ++ '/' :: (code.toList ++ '/' :: rest.toList))
    rw [← List.append_assoc, ← hurl'] at hfind
    rw [extractBase_of_find hurl' (by decide) hfind, htext]
    exact extension_code (by decide) (by decide)
  · have hfind := find_code_path hscheme hhost hd (code.toList ++ '/' :: rest.toList)
    rw [← hurl] at hfind
    rw [← List.append_assoc] at hurl
    rw [extractBase_of_find hurl hslash hfind, htext]
    exact extension_code hslash hdot

/-! ## The test -/

/-- `as u64` -/
def asU64 (n : Int) : Nat := (n % 2 ^ 64).toNat

/-- The extension in lower case, as the test compares it. -/
def lowered (ext : Option String) : Option (List Char) := ext.map fun s => toAsciiLowercase s.toList

/-- The corrupted-link test of `read`: the sizes differ, and so do the extensions. -/
def corruptedLink (d : Download) (file : File) : Bool :=
  decide (d.filesize ≠ 0) && decide (asU64 d.filesize ≠ file.fileSize) &&
    decide (lowered (downloadExtension d) ≠ lowered (extension file.path))

/-- For a file with an extension, the test on a shortened URL looks at the sizes only. -/
theorem corruptedLink_iff {d : Download} {file : File} {ext : String}
    (hd : downloadExtension d = none) (hext : extension file.path = some ext) :
    corruptedLink d file = true ↔ d.filesize ≠ 0 ∧ asU64 d.filesize ≠ file.fileSize := by
  have hne : lowered (downloadExtension d) ≠ lowered (extension file.path) := by
    rw [hd, hext]
    exact (Option.some_ne_none _).symm
  rw [corruptedLink, decide_eq_true hne, Bool.and_true, Bool.and_eq_true, decide_eq_true_eq,
    decide_eq_true_eq]

/-- **A link stands exactly when its size is unknown or right.**  For every response with a URL
    `scheme://host/d/CODE/NAME.ext` and every file with the same extension: the comparison of the
    extensions never saves the link, since the URL has lost its own before the test. -/
theorem link_stands_iff_sizes (scheme host code name ext fileExt token : String) (d : Download)
    (file : File) (hscheme : '/' ∉ scheme.toList) (hhost : '/' ∉ host.toList)
    (hcode : '/' ∉ code.toList ∧ '.' ∉ code.toList)
    (hurl : d.download = scheme ++ "://" ++ host ++ "/d/" ++ code ++ "/" ++ (name ++ "." ++ ext))
    (hpath : extension file.path = some fileExt)
    (hsame : toAsciiLowercase fileExt.toList = toAsciiLowercase ext.toList) :
    corruptedLink (Download.fromResponse token d) file = false ↔
      d.filesize = 0 ∨ asU64 d.filesize = file.fileSize := by
  have hnone : downloadExtension (Download.fromResponse token d) = none := by
    show extension (extractBaseDownloadUrl d.download) = none
    rw [hurl]
    exact extension_base hscheme hhost hcode.1 hcode.2
  rw [← Bool.not_eq_true, corruptedLink_iff hnone hpath, not_and_or, not_not, not_not]
  rfl

/-- A film of ten bytes, and its link. -/
def filmLink (filesize : Int) : Download := ⟨filesize, "https://host/d/CODE/film.MKV", ""⟩

def mkvFile : File := ⟨1, "/Film/film.mkv", 10, 1⟩

/-- The link says eleven bytes; the extensions agree, and the test fires. -/
theorem size_alone_condemns :
    extension (filmLink 11).download = some "MKV" ∧ extension mkvFile.path = some "mkv" ∧
    corruptedLink (Download.fromResponse "token" (filmLink 11)) mkvFile = true := by
  decide

theorem link_stands_iff_sizes_film :
    corruptedLink (Download.fromResponse "token" (filmLink 10)) mkvFile = false ∧
    ¬corruptedLink (Download.fromResponse "token" (filmLink 11)) mkvFile = false := by
  refine ⟨(link_stands_iff_sizes "https" "host" "CODE" "film" "MKV" "mkv" "token" (filmLink 10)
    mkvFile (by decide) (by decide) (by decide) (by decide) (by decide) (by decide)).mpr
    (by decide), fun h => ?_⟩
  have := (link_stands_iff_sizes "https" "host" "CODE" "film" "MKV" "mkv" "token" (filmLink 11)
    mkvFile (by decide) (by decide) (by decide) (by decide) (by decide) (by decide)).mp h
  exact absurd this (by decide)

end RdRs.Fuse
