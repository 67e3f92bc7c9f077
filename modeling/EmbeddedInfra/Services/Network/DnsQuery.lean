import EmbeddedInfra.Services.Network.DnsNameMatching

set_option autoImplicit false

/-! # DNS queries

`DnsResolver::QuerySize`, which the stream is requested with, and the query that `SendStreamAvailable` writes to it.
The name in the query is one that `ReadAndMatchHostname` takes for the hostname.
-/

namespace EmbeddedInfra.DnsReplies

open CallTrees Tokenizer.Positions

/-! ## The query -/

theorem lt_length_of_find {hostnameCopy : BoundedString} {dot : Nat} (h : find (char '.') hostnameCopy 0 = some dot) :
    dot < hostnameCopy.length := by
  rcases find_cases 0 with ⟨hnone, -⟩ | ⟨dot', hsome, -, hdot, -⟩
  · rw [h] at hnone
    cases hnone
  · rw [h] at hsome
    rw [Option.some.inj hsome]
    exact (List.getElem?_eq_some_iff.mp hdot).1

/-- The loop of `QuerySize`, with the size so far, and what is left of the hostname behind its last dot. It ends at
an empty string too, in which there is no dot. -/
def querySizeLoop (hostnameSize : Nat) (hostnameCopy : BoundedString) : Nat × BoundedString :=
  match h : find (char '.') hostnameCopy 0 with
  | none => (hostnameSize, hostnameCopy)
  | some dot => querySizeLoop (hostnameSize + (dot + 1)) (hostnameCopy.drop (dot + 1))
termination_by hostnameCopy.length
decreasing_by
  have hlt := lt_length_of_find h
  rw [List.length_drop]
  omega

def sizeOfQueryHeader : Nat := 12

def sizeOfQuestionFooter : Nat := 4

def querySize (hostname : BoundedString) : Nat :=
  let (hostnameSize, hostnameCopy) := querySizeLoop 1 hostname
  sizeOfQueryHeader + hostnameSize + hostnameCopy.length + 1 + sizeOfQuestionFooter

/-- The loop of `WriteHostname`, with what has been written. -/
def writeHostnameLoop (written : List UInt8) (hostnameCopy : BoundedString) : List UInt8 × BoundedString :=
  match h : find (char '.') hostnameCopy 0 with
  | none => (written, hostnameCopy)
  | some dot =>
      writeHostnameLoop (written ++ UInt8.ofNat dot :: hostnameCopy.take dot) (hostnameCopy.drop (dot + 1))
termination_by hostnameCopy.length
decreasing_by
  have hlt := lt_length_of_find h
  rw [List.length_drop]
  omega

def writeHostname (hostname : BoundedString) (written : List UInt8) : List UInt8 :=
  let (written, hostnameCopy) := writeHostnameLoop written hostname
  written ++ UInt8.ofNat hostnameCopy.length :: hostnameCopy ++ [0]

/-- `BigEndian<uint16_t>` -/
def bigEndian16 (value : UInt16) : List UInt8 := [(value >>> 8).toUInt8, value.toUInt8]

def flagsRecursionDesired : UInt16 := 0x0100

def typeA : UInt16 := 1

def classIn : UInt16 := 1

/-- What `SendStreamAvailable` writes: the header, the hostname and the footer. -/
def sendStreamAvailable (queryId : UInt16) (hostname : BoundedString) : List UInt8 :=
  let header := [queryId, flagsRecursionDesired, 1, 0, 0, 0].flatMap bigEndian16
  let footer := [typeA, classIn].flatMap bigEndian16
  writeHostname hostname header ++ footer

/-! ## Its size -/

variable {hostname : BoundedString} {labels : List BoundedString} {label : BoundedString}

/-- Both loops stop at the same dot, and count what they write. -/
theorem querySizeLoop_eq (hostnameSize : Nat) (written : List UInt8) (hostnameCopy : BoundedString) :
    querySizeLoop (hostnameSize + written.length) hostnameCopy =
      (hostnameSize + (writeHostnameLoop written hostnameCopy).1.length,
        (writeHostnameLoop written hostnameCopy).2) := by
  induction written, hostnameCopy using writeHostnameLoop.induct with
  | case1 written hostnameCopy hnone =>
      rw [querySizeLoop, writeHostnameLoop]
      split
      · rfl
      · next dot hsome => simp_all
  | case2 written hostnameCopy dot hsome ih =>
      have hlt := lt_length_of_find hsome
      have hwritten : (written ++ UInt8.ofNat dot :: hostnameCopy.take dot).length = written.length + (dot + 1) := by
        rw [List.length_append, List.length_cons, List.length_take, Nat.min_eq_left hlt.le]
      rw [hwritten] at ih
      rw [querySizeLoop, writeHostnameLoop]
      split
      · next hnone => simp_all
      · next dot' hsome' =>
          obtain rfl : dot = dot' := Option.some.inj (hsome.symm.trans hsome')
          rw [Nat.add_assoc]
          exact ih

/-- What has been written stays. -/
theorem writeHostnameLoop_append (written written' : List UInt8) (hostnameCopy : BoundedString) :
    writeHostnameLoop (written ++ written') hostnameCopy =
      (written ++ (writeHostnameLoop written' hostnameCopy).1, (writeHostnameLoop written' hostnameCopy).2) := by
  induction written', hostnameCopy using writeHostnameLoop.induct with
  | case1 written' hostnameCopy hnone =>
      rw [writeHostnameLoop, writeHostnameLoop]
      split
      · rfl
      · next dot hsome => simp_all
  | case2 written' hostnameCopy dot hsome ih =>
      rw [writeHostnameLoop, writeHostnameLoop.eq_def written']
      split
      · next hnone => simp_all
      · next dot' hsome' =>
          obtain rfl : dot = dot' := Option.some.inj (hsome.symm.trans hsome')
          rw [List.append_assoc]
          exact ih

theorem writeHostname_eq (hostname : BoundedString) (written : List UInt8) :
    writeHostname hostname written = written ++ writeHostname hostname [] := by
  have happend := writeHostnameLoop_append written [] hostname
  rw [List.append_nil] at happend
  rw [writeHostname, writeHostname, happend]
  simp only [List.append_assoc]

theorem length_bigEndian16 (values : List UInt16) : (values.flatMap bigEndian16).length = 2 * values.length := by
  induction values with
  | nil => rfl
  | cons value values ih =>
      rw [List.flatMap_cons, List.length_append, ih, List.length_cons]
      change 2 + 2 * values.length = 2 * (values.length + 1)
      omega

/-- The size of the query is the number of bytes that are written. -/
theorem querySize_eq (queryId : UInt16) (hostname : BoundedString) :
    querySize hostname = (sendStreamAvailable queryId hostname).length := by
  have hloop := querySizeLoop_eq 1 [] hostname
  rw [List.length_nil, Nat.add_zero] at hloop
  rw [querySize, hloop, sendStreamAvailable, writeHostname_eq, writeHostname]
  simp only [List.length_append, length_bigEndian16, List.length_cons, List.length_nil, sizeOfQueryHeader,
    sizeOfQuestionFooter]
  omega

/-! ## Its name -/

/-- A label, behind its size. -/
def labelBytes (label : BoundedString) : List UInt8 := UInt8.ofNat label.length :: label

theorem findLoop_append (hlabel : char '.' ∉ label) (rest : BoundedString) (index : Nat) :
    findLoop (char '.') (label ++ char '.' :: rest) index = some (index + label.length) := by
  induction label generalizing index with
  | nil => exact if_pos rfl
  | cons c label ih =>
      rw [List.mem_cons, not_or] at hlabel
      rw [List.cons_append, findLoop, if_neg (Ne.symm hlabel.1), ih hlabel.2, List.length_cons]
      congr 1
      omega

theorem find_label (hlabel : char '.' ∉ label) : find (char '.') label 0 = none := by
  rcases find_cases 0 with ⟨hnone, -⟩ | ⟨dot, -, -, hdot, -⟩
  · exact hnone
  · exact absurd (List.mem_of_getElem? hdot) hlabel

theorem writeHostnameLoop_label (hlabel : char '.' ∉ label) (written : List UInt8) :
    writeHostnameLoop written label = (written, label) := by
  rw [writeHostnameLoop]
  split
  · rfl
  · next dot hsome =>
      rw [find_label hlabel] at hsome
      cases hsome

theorem writeHostnameLoop_dot (hlabel : char '.' ∉ label) (written : List UInt8) (rest : BoundedString) :
    writeHostnameLoop written (label ++ char '.' :: rest) = writeHostnameLoop (written ++ labelBytes label) rest := by
  have hfind : find (char '.') (label ++ char '.' :: rest) 0 = some label.length := by
    rw [find, List.drop_zero, findLoop_append hlabel, Nat.zero_add]
  rw [writeHostnameLoop]
  split
  · next hnone =>
      rw [hfind] at hnone
      cases hnone
  · next dot hsome =>
      obtain rfl : label.length = dot := Option.some.inj (hfind.symm.trans hsome)
      have hdrop : (label ++ char '.' :: rest).drop (label.length + 1) = rest := by
        rw [← List.drop_drop, List.drop_left, List.drop_one, List.tail_cons]
      rw [hdrop, List.take_left]
      rfl

/-- What is written for labels. -/
theorem writeHostname_labels (hlabels : AreLabels (char '.') labels) (hne : labels ≠ []) (written : List UInt8) :
    writeHostname ([char '.'].intercalate labels) written = written ++ (labels.flatMap labelBytes ++ [0]) := by
  induction labels generalizing written with
  | nil => exact absurd rfl hne
  | cons label labels ih =>
      rw [List.flatMap_cons]
      rcases labels with _ | ⟨label', labels⟩
      · rw [List.intercalate_singleton, writeHostname, writeHostnameLoop_label hlabels.head.2]
        simp [labelBytes]
      · have hrest := ih hlabels.tail (List.cons_ne_nil _ _) (written ++ labelBytes label)
        rw [List.intercalate_cons_cons, List.append_assoc, List.singleton_append, writeHostname,
          writeHostnameLoop_dot hlabels.head.2]
        rw [writeHostname] at hrest
        rw [hrest]
        simp only [List.append_assoc]

theorem toNat_ofNat_length (hle : label.length ≤ 63) : (UInt8.ofNat label.length).toNat = label.length := by
  rw [UInt8.toNat_ofNat', Nat.mod_eq_of_lt (by omega)]

/-- Labels that are written somewhere in a datagram are a name there. -/
theorem encodes_labels (hne : ∀ label ∈ labels, label ≠ []) (hle : ∀ label ∈ labels, label.length ≤ 63)
    (before after : List UInt8) :
    Encodes (before ++ (labels.flatMap labelBytes ++ [0]) ++ after) before.length labels
      (before.length + (labels.flatMap labelBytes ++ [0]).length) := by
  induction labels generalizing before with
  | nil => exact Encodes.zero (by simp)
  | cons label labels ih =>
      have hsize := toNat_ofNat_length (hle label List.mem_cons_self)
      have hrest := ih (fun label' hmem => hne label' (List.mem_cons_of_mem label hmem))
        (fun label' hmem => hle label' (List.mem_cons_of_mem label hmem)) (before ++ labelBytes label)
      have hdata : before ++ labelBytes label ++ (labels.flatMap labelBytes ++ [0]) ++ after =
          before ++ UInt8.ofNat label.length :: (label ++ (labels.flatMap labelBytes ++ [0]) ++ after) := by
        simp [labelBytes]
      have hposition : (before ++ labelBytes label).length = before.length + 1 + (UInt8.ofNat label.length).toNat := by
        rw [hsize, List.length_append, labelBytes, List.length_cons]
        omega
      have hbehind : (before ++ labelBytes label).length + (labels.flatMap labelBytes ++ [0]).length =
          before.length + ((label :: labels).flatMap labelBytes ++ [0]).length := by
        simp only [List.flatMap_cons, List.length_append]
        omega
      have hsame : before ++ ((label :: labels).flatMap labelBytes ++ [0]) ++ after =
          before ++ labelBytes label ++ (labels.flatMap labelBytes ++ [0]) ++ after := by
        rw [List.flatMap_cons, List.append_assoc (labelBytes label), ← List.append_assoc before]
      rw [hbehind, hposition] at hrest
      rw [hsame]
      refine Encodes.label ?_ ?_ ?_ ?_ ?_ hrest
      · rw [hdata, List.getElem?_append_right le_rfl, Nat.sub_self, List.getElem?_cons_zero]
      · rw [hsize]
        exact List.length_pos_of_ne_nil (hne label List.mem_cons_self)
      · rw [hsize]
        exact hle label List.mem_cons_self
      · rw [hsize, hdata, ← List.drop_drop, List.drop_left, List.drop_one, List.tail_cons, List.append_assoc,
          List.take_left]
      · exact hsize.symm

theorem namesBegin_self (labels : List BoundedString) : namesBegin labels labels = true := by
  induction labels with
  | nil => rfl
  | cons label labels ih =>
      rw [namesBegin, ih, Bool.and_true, List.isPrefixOf_iff_prefix]

/-- **Queries are as long as announced**, and the name in them is one that is taken for the hostname and consumed,
wherever it stands. -/
theorem query_encodes_hostname :
    (∀ queryId hostname, querySize hostname = (sendStreamAvailable queryId hostname).length) ∧
      ∀ labels : List BoundedString, labels ≠ [] → AreLabels (char '.') labels →
        (∀ label ∈ labels, label.length ≤ 63) →
        ∀ (d : Datagram) (before after : List UInt8) (unread : Nat),
          d.data = before ++ writeHostname ([char '.'].intercalate labels) [] ++ after →
          Yields (turn d)
            (readAndMatchHostname d ([char '.'].intercalate labels)
              { position := before.length, failed := false, unread := unread })
            (true, { position := before.length + (writeHostname ([char '.'].intercalate labels) []).length
                     failed := false
                     unread := unread }) := by
  constructor
  · exact querySize_eq
  · intro labels hne hlabels hle d before after unread hdata
    rw [writeHostname_labels hlabels hne, List.nil_append] at hdata ⊢
    have hencodes := encodes_labels (fun label hmem => (hlabels label hmem).1) hle before after
    rw [← hdata] at hencodes
    have hmatch := Encodes.readAndMatchHostname
      (s := { position := before.length, failed := false, unread := unread }) hencodes hlabels hne
    rw [namesBegin_self] at hmatch
    exact hmatch

/-- A query for `ab.c`, and a datagram that has a byte before the name. -/
theorem query_encodes_two_labels :
    querySize (literal "ab.c") = 22 ∧
      Yields (turn { data := [7, 2, char 'a', char 'b', 1, char 'c', 0], uninitialised := fun _ => 0 })
        (readAndMatchHostname { data := [7, 2, char 'a', char 'b', 1, char 'c', 0], uninitialised := fun _ => 0 }
          (literal "ab.c") { position := 1, failed := false, unread := 0 })
        (true, { position := 7, failed := false, unread := 0 }) := by
  have hlabels : AreLabels (char '.') [literal "ab", literal "c"] := by
    intro label hmem
    rcases List.mem_pair.mp hmem with rfl | rfl <;> decide
  have hwritten : writeHostname ([char '.'].intercalate [literal "ab", literal "c"]) [] =
      [2, char 'a', char 'b', 1, char 'c', 0] := writeHostname_labels hlabels (List.cons_ne_nil _ _) []
  have hname := query_encodes_hostname.2 [literal "ab", literal "c"] (List.cons_ne_nil _ _) hlabels (by decide)
    { data := [7, 2, char 'a', char 'b', 1, char 'c', 0], uninitialised := fun _ => 0 } [7] [] 0
  have hhostname : [char '.'].intercalate [literal "ab", literal "c"] = literal "ab.c" := rfl
  rw [hhostname] at hwritten hname
  rw [hwritten] at hname
  constructor
  · rw [query_encodes_hostname.1 0, sendStreamAvailable, writeHostname_eq, hwritten]
    rfl
  · exact hname rfl

end EmbeddedInfra.DnsReplies
