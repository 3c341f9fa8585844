/-!
Characters of all scripts: which can be shown as they are, which stand in a word or in an
identifier, and the small letters for capital letters. Control characters, separators other than the
space, unassigned code points and those of private use cannot be shown.
-/
namespace WorkflowInference.Text

def numbersFrom (n : Nat) : List Char → List Nat
  | [] => []
  | c :: cs =>
    if c.isUpper then (26 * n + (c.toNat - 65)) :: numbersFrom 0 cs
      else numbersFrom (26 * n + (c.toNat - 97)) cs

/-- Numbers that are written in letters as digits to base 26; the last digit of each is a capital.
-/
def unpack (lines : List String) : List Nat := lines.flatMap fun l => numbersFrom 0 l.toList

/-- The code points above the ASCII range that cannot be shown, as runs: in turn how many are left
out and how many follow each other. -/
def unprintableRuns : List Nat := unpack [
  "eYbHMBbbMCGEHBBBUBpHBbMCbYCDBcDIbBEGRWBhKBbWCcHCdXOcHCbXCPBbCCBBLFbFJcWBgFBICCCWBHBBDECJCCCEIBE",
  "CBFCZCDBGECCWBHBCBCBCCBBFECCDDBHEBBHRKDBJBDBWBHBCBFCKBDBDCBPECMHHBDBICCCWBHBCBFCJCCCDHDECBFCSKC",
  "BGDDBEDCBBBCDCDDDMEFDDBECBGBOVFNBDBXBQCJBDBEHCBDCBCECKHWBDBXBKBFCJBDBEHCGCBECKBCNNBDBbZBDBGEQC",
  "bABDBSDYBJBBCHDBEGBBBIGKCDMcGEbDbLCBBBFBYBBBXCFBBBGCKCEbGcUBbKEbNBbKBPBNbLhQBBFBCoNBECHBBBECbPB",
  "ECbHBECHBBBECPBcFBECcPCbGDbAGdICGCyQBbCDdLHWJYJUMNBDBCMdQCKGKGOBLGdLHbRFcSKbFBMEMEBDbQCFLbSEbAG",
  "LDcKCcNBbDCLGKGOCbFbXcZDbVBeMIcIDPDcIHbRCLIbRFuOCGCbMCGCIBBBBBBBbFCcBBPBOCGBTCDBJRYIbVRCCbBBND",
  "bHPbHPfKEzNZLVcrSCbGBnLFbTBBFBCcEHCOYJHBHBHBHBHBHBHBHBeWbIbABdLMiGbAMFcLBdICdZFbRBdQBdGMbVBbriR",
  "DcDJnKUhCIhVFCBBBFYcHDKGcEIcSIMGeMLbEDdABLEbHBcDJOCKCdZYbCKGCGCGJHBHBcIEeWCKGqnSMXEbXmnCoCCeCbM",
  "HMFFbABFBBBCBCBeVQrDCcCHBbGbQGbZBTBEEFBfFEhIDGCGCGCDDHBHNCCMBbABTBCBPCObIeTFDEbTDdKBNDBbVbUfAbD",
  "DbXPbCEbKJbEFbRFbEBbLEObQgCCKGbKEbKEbOIcALMBPBHBCBLBPBHBCcPlZJWKIYGBbQBJcRGCBBbSBCDBCXBcUIJbWTB",
  "CFbHDbBFBcMcEEUCbYBCFIBDBbDCDEKHJHcMbGbNEMJcCDbDCbBFbAHEMHdCcVcDbZNbZHbUIKlIbFBbQBDCCdAbOIbQWbA",
  "bMbCUXJdAEbKJcKBFNZHKGcBBSIbNJdSBULSBbScNHBBBEBPBLGcHFKGEBICCCWBHBCBFBKCCCDCBGBFHCHDFfJdOBFbEcU",
  "IKgKcCCbMbIcRLKGNTcGGKcCbBCPEXhDcIdWdFMICBCIBCBbEBCCMJKcSICbUCLbBcUIdFNcVkDJBbTBOKbDDbGCWBOcVHB",
  "CBbSDBBCBJIKGGBCBbLBCBGHKlYZhBBPbYNbjNdYeHBFLhOdxKdVNbpFfzTwLmuBvXHbFBKEdDBKGbECGKcSKKBHBVFTbaM",
  "dNdXcXEcFHRcMFLCOjcAIbvQbQJnfREBHBCBlFbTDREIpGdkUeDFNDJHKCEgyYbUCXJeMcIjMKbNCcWIeIVcSfYUMdJJZfF",
  "dHBcTBCCBCCCEBMBBBHBcNBECIBHBbCBEBFBBDHBnCClGCbbAPFBPbqMbFiRHBRCHBCBFiFbTDOCKECmIbFRcGFBbwAHBEB",
  "CBPBhPCQbPcYEKECbeFcQcYcJhMEBbBBCBBCBBKBEBBBBGBEBBBBBBDBCBBCBBBBBBBBBBCBBCEBHBEBEBBBKBRFDBFBRcA",
  "CkKbSEdWMPCPBPBbLKgScEbDNbSEJHCOGfYblWFQDNDeMMdLHMEBPMEcEIKGbOIbECCdAnCMOCFDFDHJbDDLFGKKGIIHJfR",
  "BcDbLKbnQclfCbGgdTHiOCinQOlbLepJuWcfYhhZbotmRjGlecU"]

def inRuns : List Nat → Nat → Bool
  | skip :: take :: runs, n => skip ≤ n && (n < skip + take || inRuns runs (n - (skip + take)))
  | _, _ => false

def isPrintable (c : Char) : Bool :=
  if c.toNat < 0x80 then 0x20 ≤ c.toNat && c.toNat < 0x7f else !inRuns unprintableRuns c.toNat

def alphanumericRuns : List Nat := unpack [
  "bWKHbAGbAbVBHCBBDCBDBXBbFBrQEMOFHBBBeZFBCCEBBGBBDBBBUBdFBfJIgKBbMCBGbPcTbBEEbTbRVKECBdVBBPCHPCB",
  "QBBbEbDdLLBObRJCEBFWEBJBDBXZHLFYBGRbQcGcCDBSBHKEKBQEICCCWBHBBDEDBQBNCBDEMCGCBIGECCWBHBCBCBCbFEB",
  "BHKCDQJBDBWBHBCBFDBSBPCEKJBLICCCWBHBCBFDBbECBDEKBHLBBGDDBEDCBBBCDCDDDMWBVNSIBDBXBQDBbADCBCCEKIH",
  "BBEIBDBXBKBFDBbFCBCEKBCRJBDBbPCBQBFDBKETBGFSDYBJBBCHbFKRbWBCMHJKbNCBBBFBYBBBKBCJBCFBBJKCEbGBbFU",
  "MIBbKbBFeLbRULGGEEDBDCHDENMBBKGbMBBFBCbRBmVBECHBBBECbPBECbHBECHBBBECPBcFBECcPOUDQQdICGDxWCRBbAF",
  "cXDLHSNTOSONBDPcAbJBEBDKGKWKGdLHFCbIBBFcSKbFbNbOCFLbSEbAGLbLXJcBbRKGKNBdPbVRIDKbPbENcEbAbKbCKD",
  "bXCJHbRCDbPEBGBCDBFhKcMkSCGCbMCGCIBBBBBBBbFCcBBHBBDDBHDECGENFDBHeLCCGFLGNdXBEBCKBBDFGBBBBBBEBLC",
  "EFFEBBcGbbYcIdAWyGbEbrOiVGEDCJBCbMBBFBCcEHBQXJHBHBHBHBHBHBHBHdCBsBDZJHFCFEdIGDBdMBEFbRBdQDEKbG",
  "bWQbGKbEIBPbGKbNPmIjtOcMbguFcPbUCkJDbCUbVQbFCdCbNJCdZCcMFCBBBFYQBDBEBXNGKcAObYbCKYGDBBCBbMKXZbD",
  "HbVbCLGFBZBbPXDBIEKGXDBDbYBBDCCFCBBBYDCLHDMGCGCGJHBHBbRBOGeLNKGqnSMXEbXmnCoCCeCbMHMFFBBKBNBFBBB",
  "CBCBeEbHnZScMCcCbOMeMFBfFTKHbAGbALdLDGCGCGCDbJMBbABTBCBPCObIeTMbTMcFRCjKbDDbXQbBEbKJbEFbMKbECbK",
  "EIBFbQgCCKGbKEbKEbOIcAMLBPBHBCBLBPBHBCcPlZJWKIYGBbQBJcRGCBBbSBCDBCXCbFCbMIJbWTBCFbHEbAcScEEUCbV",
  "PEBDBbDKJXbFBbGbGIBbCGFQcCKWCbBFbAXHdCcVcDbZNbZHbQMKlIbFBbQGCdAbOIWLEbBSbUbCUXMcBbAbEBCCBNbTbGZ",
  "HKJbKPKEBCBIbJDBMbWOELLBBEULSBZdGHBBBEBPBKHbVRKLICCCWBHBCBFDBSBMFgCcBSEFKFDbEbWUCBBIKgKbVbPEbK",
  "bWUBLKbMbRNBHKcCbBVMEHhDbSeMdFMICBCIBCBYPBBBOKcSICbNQBBBbCBKbOHBVBLbUTBScVkDJBbLRBPbDFbEeIHBCB",
  "bMVBJKGGBCBbGOBHKlYThHBPVbRbjMdYeHRhOdxKdTPbpFfzTwLmuBvXHbFBKGdBBKGbESbWQEMKBHBVFTbaMdJeBcXFBcO",
  "NcMCBBbCjcAIbvQbQJnfREBHBCBlFbTDREIpGdkUeDFNDJHKilIUeEZfFdHBcTBCCBCCCEBMBBBHBcNBECIBHBbCBEBFBBD",
  "HBnCCZBZBbFBZBbFBZBbFBZBbFBZBICbYcqYbFsNbTKHCKEBmJbESbSEKbwGHBEBCBPBhPCJbWcQHBEKbeLcHBDBEcYbTBP",
  "hMEBbBBCBBCBBKBEBBBBGBEBBBBBBDBCBBCBBBBBBBBBBCBBCEBHBEBEBBBKBRFDBFBRwINedFKbnQclfCbGgdTHiOCinQO",
  "lbLepJuWcfYhhZ"]

def isAlphanumeric (c : Char) : Bool :=
  if c.toNat < 0x80 then c.isAlphanum
  else inRuns alphanumericRuns c.toNat

def isWord (c : Char) : Bool := isAlphanumeric c || c = '_'

def startExceptions : List Nat := unpack [
  "bWKbLBdECFBCDbaXBbcNKfEKhQKpWKeOKEGeEKeOKeOKCGeGNeLKIHdZKeAHHTeFKcPBbCKdLBbCKcSUkIKcSKbbRUbrFKG",
  "KWKeDChJKeYLgJKGKhAKdIKfEKGKboGBDGGKfMBVBbHQbPBbbYcIdAWyGbEcbHBlTBbhIEfIKbEIBPbGKbNPbrsAKtYGfYK",
  "bMKhQKWKdIKpQKbelOGpQCeMBBBBBBBBBBBBBBBfPKfCCnVbTcNERCnDbBbKEoQKbkGIZHbNJcXFWGgECCQCbUcMJcACbED",
  "cXFeAIYIbPHmSGbWKlIbFgCKbQEeIHfEbEeYKcIKfOKHUjRKnEKeOKoKKdYKdYMqETdPKbdEbDiTKcSKuOVbcfZKdIKfEKB",
  "HbeSXblzLUeEZbqRbYdnCKqGKcfDJeYKbeLcHBDBEcYbTBPblANedFK"]

def startsIdentifier (c : Char) : Bool :=
  inRuns alphanumericRuns c.toNat != inRuns startExceptions c.toNat

def furtherRuns : List Nat := unpack [
  "bWKeVBwMeIXBjRFkFbTBBBCBCBBcULbWbFGBdXHCGCCBECKXBbEbBdNLPKbHJJBYEBJBDBFbRDcIIbQYBbHcCDBSBHKCCKR",
  "DcEBBHCCCDJBKCCKOBCDcEBBFECCDDBUMDBLDcEBBIBDBDUCCKKGBDcEBBHCCCDHDKCCKSBcHFDDBEJBOKQFcDBBHBDBEHC",
  "LCCKRDcEBBHBDBEHCLCCKQEcDCBHBDBEJBKCCKRDcSBEGBBBIGKCCcJBBIMIBKdJBBKLGCKcKCGKLBBBBBECbXUBCFLBbKJ",
  "BdWUBKMEEDBDCHDENMBPbbBDJJbjSEbCDbDCbECcMbGJBCKbHDBLfNBeOMEMKKeYLcIFcFKBbDCLGKWOBQbXFbVRLKRJMD",
  "bENCKbSObWUIKGKeODBVEBGBCDhQcMwDCTBeTNEBDMeoCDfLBdSbGvIGeBCbsnDKcRBEKbGCdCCkMBDBEBXFEBdFCbYSKKG",
  "SNLbCIZNbSEbVOPKLBKKbVOMBICCKbHDbYBBDCCFCBBbPFFCjCIBCCKbdzGBbcJQQQDCYDhKKbLBdQCxHBiSBfTFlHKcaPD",
  "BCFEbODEBgJCwBEIKoFCfXLbXEeSDcBPbFLCCKEbTLHBbTKGDbKOBKFCbSBMDbWOIEBMdEMGBgEMFKGEcDCBHCCCDJBKCCH",
  "DFhKSJKEBdDUMKiFHCJbBCdERPKdDNIKdFPEKjIPgJKcSGBCCEBBBCMKePHCHDBbCKbOHBEIBJLbUQpPIBIQKcEWBOeSGDB",
  "BCBHBBIKbWFBCBFIKmREbcoNKdIKbMFcHHZKbmZBBcDHEdDBLCbdaXCgyZbUCXuWFDGIICHbEEfSDccNbYtScDEbYIBOBWF",
  "BPcaIHBRCHBCBFkBHJKnSBcJOcfMHeFHFKhbAKbsvgWjG"]

def isIdentifier (s : String) : Bool :=
  match s.toList with
  | [] => false
  | c :: cs =>
    startsIdentifier c && cs.all fun d => startsIdentifier d || inRuns furtherRuns d.toNat

def runsFrom (before : Nat) : List Nat → List (Nat × Nat × Nat × Nat)
  | skip :: len :: step :: small :: runs =>
    (before + skip, before + skip + len, step, small) :: runsFrom (before + skip) runs
  | _ => []

def capitalRuns : List (Nat × Nat × Nat × Nat) := runsFrom 0 (unpack [
  "cNZBdTeXWBiQYGBjObObUCjXbYEClVHOCmCRbSCmTbUABjVBECoOIABwXBCCoXEABwYBABpCCBBxACABpGDABsJBABxDBAB",
  "xFBABpMCABxKBABxNCABxTBABxSBABpTEABxZBAByCCAByFBECqBGAByQBABqICAByTDABqNCAByYBABqQCBBzACCCqUEAB",
  "zIBABqZEABrDIABrMBABrMCABrPBABrPCABrSBQCrSTQCsLTABtFBCCtFEABpPBABrFBbMCtLbOABpYCQCvBYABqvDBABwA",
  "CABpUBABqvEDABwGCABoUBAByZBABzCBICwLlMCCbhXGABbiDJABbmXHABbkECCBbkFEABblKCBBblLDQBbkJSIBblBbSAB",
  "blVJWCblXbCABbkQDABbnCCABbmWBABbnFDCBbiHDPBbqMQbFBbpGdCbGCbrDbQcACbsTcCABbvJBMCbuWPdQCbvLdTbLB",
  "caZeiPbLBrbCbNABrcPGABrcVbbVdBBcmyAdCFBhoQdgYbQBgjObTCBglHmLfSCljLgCABiPCdQClpPeAHBltGQFBltWQHB",
  "luMQHBlvCQFBlvSRGClwJPHBlwYbGHBlyEQHBlyUQHBlzKQBBmaACBBlxOCABmaDMDBlxQEABmaTMBBmbGCBBlxUOBBmbWC",
  "BBlxYCABmcBMBBlxWCBBlyACABmcPlMABblHEABeDBABiVHABmpYbUPBmrGbJABmsAbfNZBnyMctUbVBqtCdSABquZCABxV",
  "BABleJBAByNDECqvGGABwVBAByBBABwUBABwWCABqvRDABqvUJBBwDCdUCqwFeDCCraIHABraPbtyKbSCckyZcMbACclbL",
  "gGMCclhRQcICcliHcTCCcllAEABleFBICcllFNABcllSCABxPDCCcllXGSCclmDUABxQBABxGBABxLBABxWBABxUCABzUBA",
  "ByXBABzTBABcmwXBOCclnHQABclmABABySBABlfABCCcloAJABcloJGCCcloPbFABclpUbhaIZBdsrHbvZbNBdunOgUbJB",
  "duuIhKKBdvbRMOBdvcDQGBdvcTIBBdvdBcqEbYBdxuEepKbFBeciIbglCbFBfitKbumQbHBhdgC"])

def lowerChar (c : Char) : Char :=
  let n := c.toNat
  if n < 128 then c.toLower
  else
    match capitalRuns.find? fun (a, b, s, _) =>
      decide (a ≤ n) && decide (n ≤ b) && (n - a) % s == 0 with
    | some (a, _, _, l) => Char.ofNat (l + (n - a))
    | none => c

def isLetter (c : Char) : Bool := isAlphanumeric c && !c.isDigit

/-- A text in small letters. A sigma at the end of a word has a form of its own, and a capital I
with a dot keeps the dot as a mark. -/
def lowerFrom : Bool → List Char → List Char
  | _, [] => []
  | inWord, 'Σ' :: cs =>
    (if inWord && !(cs.head?.any isLetter) then 'ς' else 'σ') :: lowerFrom true cs
  | _, 'İ' :: cs => 'i' :: '\u0307' :: lowerFrom true cs
  | _, c :: cs => lowerChar c :: lowerFrom (isLetter c) cs

def lower (s : String) : String := String.ofList (lowerFrom false s.toList)

end WorkflowInference.Text
