import Mathlib.Data.List.Infix

/-!
# Secret-like paths

A path is secret-like for one of its directories, for its file name or for its
extension. Names are compared in lower case; a Kelvin sign is the one character
outside ASCII that turns into a letter of the names compared with.
-/

namespace LeanCtx.SecretPaths

def toLowercase (s : List Char) : List Char :=
  s.map fun c => if c = '\u212a' then 'k' else c.toLower

def eqIgnoreAsciiCase (s t : List Char) : Bool := s.map Char.toLower = t.map Char.toLower

/-- The parts of a relative path, `..` among them. -/
def components (path : List Char) : List (List Char) :=
  (path.splitOn '/').filter fun part => part ≠ [] && part ≠ ['.']

def fileName (path : List Char) : List Char :=
  ((components path).getLast?.filter fun part => part ≠ ['.', '.']).getD []

/-- What follows the last dot of a name that does not start with it. -/
def extension (file : List Char) : List Char :=
  let ext := (file.reverse.takeWhile (· ≠ '.')).reverse
  if ext.length + 1 < file.length then ext else []

def allowSuffixes : List String := [".example", ".sample", ".template", ".dist", ".defaults"]

def credentialFiles : List String :=
  ["id_rsa", "id_ed25519", "id_ecdsa", "id_dsa", "authorized_keys", "known_hosts", ".npmrc",
    ".netrc", ".pypirc", ".dockerconfigjson", "credentials.json", "secrets.json", "secrets.yaml",
    "secrets.yml", "keystore.jks", "truststore.jks", ".htpasswd", "shadow", "master.key"]

def secretExts : List String := ["pem", "key", "p12", "pfx", "kdbx"]

def sensitiveRoot (part : List Char) : Option String :=
  let c := toLowercase part
  if c = ".ssh".toList then some ".ssh directory"
  else if c = ".aws".toList then some ".aws directory"
  else if c = ".gnupg".toList then some ".gnupg directory"
  else none

/-- Why a file is secret-like by its name in lower case or its extension. -/
def secretFile (path lower ext : List Char) : Option String :=
  if lower = ".env".toList then some ".env file"
  else if ".env.".toList.isPrefixOf lower then
    if allowSuffixes.any fun s => s.toList.isSuffixOf lower then none else some ".env.* file"
  else if credentialFiles.any fun s => lower = s.toList then some "credential file"
  else if "service-account".toList.isPrefixOf lower &&
      (eqIgnoreAsciiCase (extension lower) "json".toList ||
        eqIgnoreAsciiCase (extension lower) "key".toList) then some "service account key"
  else if secretExts.any fun e => eqIgnoreAsciiCase ext e.toList then some "secret key material"
  else if lower = "credentials".toList &&
      (toLowercase path).tails.any fun rest => "/.aws/".toList.isPrefixOf rest then
    some "aws credentials"
  else none

/-- Why a path is secret-like, if it is. -/
def isSecretLike (path : String) : Option String :=
  let file := fileName path.toList
  ((components path.toList).findSome? sensitiveRoot).or
    (secretFile path.toList (toLowercase file) (extension file))

/-! ## Paths that are not -/

/-- The path of one name of letters `a`. -/
def plainName (n : ℕ) : List Char := List.replicate (n + 1) 'a'

theorem components_plainName (n : ℕ) : components (plainName n) = [plainName n] := by
  have hslash : '/' ∉ plainName n := by simp [plainName]
  have hname : plainName n ≠ [] := by simp [plainName]
  have hdot : plainName n ≠ ['.'] := by
    intro h
    have hhead := congrArg List.head? h
    simp [plainName, List.replicate_succ] at hhead
  rw [components, List.splitOn_eq_singleton hslash]
  simp [hname, hdot]

theorem plainName_ne (n : ℕ) {s : List Char} (h : s.any (· ≠ 'a') = true) : plainName n ≠ s := by
  rintro rfl
  obtain ⟨c, hc, hne⟩ := List.any_eq_true.mp h
  rw [List.eq_of_mem_replicate hc] at hne
  cases hne

theorem not_isPrefixOf_plainName (n : ℕ) {c : Char} (s : List Char) (h : c ≠ 'a') :
    (c :: s).isPrefixOf (plainName n) = false := by
  simp [plainName, List.replicate_succ, List.isPrefixOf, h]

theorem fileName_plainName (n : ℕ) : fileName (plainName n) = plainName n := by
  have hparent : plainName n ≠ ['.', '.'] := plainName_ne n (by decide)
  rw [fileName, components_plainName, List.getLast?_singleton, Option.filter_some,
    decide_eq_true hparent]
  rfl

theorem extension_plainName (n : ℕ) : extension (plainName n) = [] := by
  have hall : (plainName n).reverse.takeWhile (· ≠ '.') = plainName n := by
    simp [plainName]
  have hlen : ¬ (plainName n).length + 1 < (plainName n).length := by omega
  simp only [extension, hall, List.length_reverse, if_neg hlen]

theorem secretFile_plainName (path : List Char) (n : ℕ) :
    secretFile path (plainName n) [] = none := by
  have hcredential : (credentialFiles.any fun s => plainName n = s.toList) = false := by
    rw [List.any_eq_false]
    intro s hs
    have hother : s.toList.any (· ≠ 'a') = true := by
      revert s
      decide
    simpa using plainName_ne n hother
  have hexts : (secretExts.any fun e => eqIgnoreAsciiCase [] e.toList) = false := by decide
  have henv : plainName n ≠ ".env".toList := plainName_ne n (by decide)
  have hdotted : ".env.".toList.isPrefixOf (plainName n) = false :=
    not_isPrefixOf_plainName n _ (by decide)
  have hservice : "service-account".toList.isPrefixOf (plainName n) = false :=
    not_isPrefixOf_plainName n _ (by decide)
  have haws : plainName n ≠ "credentials".toList := plainName_ne n (by decide)
  simp only [secretFile, if_neg henv, hdotted, hcredential, hservice, hexts, Bool.false_and,
    decide_eq_false haws, Bool.false_eq_true, if_false]

/-- No name that is looked for consists of letters `a` only. -/
theorem isSecretLike_plainName (n : ℕ) : isSecretLike (String.ofList (plainName n)) = none := by
  have hlower : toLowercase (plainName n) = plainName n := by
    simp [toLowercase, plainName]
  have hssh : plainName n ≠ ".ssh".toList := plainName_ne n (by decide)
  have haws : plainName n ≠ ".aws".toList := plainName_ne n (by decide)
  have hgnupg : plainName n ≠ ".gnupg".toList := plainName_ne n (by decide)
  have hroot : sensitiveRoot (plainName n) = none := by
    simp only [sensitiveRoot, hlower, if_neg hssh, if_neg haws, if_neg hgnupg]
  rw [isSecretLike, String.toList_ofList, components_plainName, fileName_plainName, hlower,
    extension_plainName, secretFile_plainName, List.findSome?_singleton, hroot]
  rfl

end LeanCtx.SecretPaths
