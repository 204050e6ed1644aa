/-!
Which characters may stand in an identifier.

The two classes are Unicode's `XID_Start` and `XID_Continue`.  The second holds the first, so the tables list the
letters that may start an identifier and the marks that may only continue one; `isIdentifierPart_of_start` is that
inclusion.  Characters below 128 are decided without a table.
-/

namespace Respell.Text

/-! ## Tables

A table gives the lengths of the runs of characters from 128 on: so many that are not in the class, then so many that
are, and so on.  Lengths are written in base 26, and the last digit of each is a capital letter. -/

/-- The lengths that letters stand for, the first of which goes on from `n`. -/
def lengths (n : Nat) : List Char → List Nat
  | [] => []
  | c :: cs =>
    if c.isUpper then (26 * n + (c.toNat - 'A'.toNat)) :: lengths 0 cs
    else lengths (26 * n + (c.toNat - 'a'.toNat)) cs

/-- Characters from 128 on that may start an identifier. -/
def identifierStartRuns : List Nat :=
  lengths 0 <| List.flatMap String.toList [
    "bQBKBEBFXBbFBrQEMOFHBBBeZFBCDDBBGBBDBBBUBdFBfJIgKBbMCBGbPCCcPbBEEbTbRbJCBdVBBPCHCKDCBQBBbEbDdLLBYbHJCEBFWEBJBDBX",
    "ZHLFYBHQbQcGcCDBSBHKPQEICCCWBHBBDEDBQBNCBDOCKBIGECCWBHBCBCBCbFEBBTDQJBDBWBHBCBFDBSBPCXBLICCCWBHBCBFDBbECBDPBRBBG",
    "DDBEDCBBBCDCDDDMWBcAIBDBXBQDBbADBCCCbEBEIBDBXBKBFDBbEDBCPCRJBDBbPCBQBFDIDYGFSDYBJBBCHcGbWBBNHcGCBBBFBYBBBKBBKBCF",
    "BBVEbGBcLIBbKbBFeLbRUBQGEEDBDCHDENMBRbMBBFBCbRBmVBECHBBBECbPBECbHBECHBBBECPBcFBECcPbLQQdICGDxWCRBbAFcXDLHSNTOSON",
    "BDPcAbJBEBcPdLHbPBBFcSKbFbXbECFLbSEbAcCXJcBdEBdPbVRIcCbENCKbSbAbKbPDKbKCLFbRCDbPEBGBCDBFhKcMkSCGCbMCGCIBBBBBBBbF",
    "CcBBHBBDDBHDECGENFDBHeMBNBQQdUBEBCKBBCGGBBBBBBQCEFFEBRbPdzBiVGEDCMbMBBFBCcEHBQXJHBHBHBHBHBHBHBHvEDZJHFCFEdIGDBdM",
    "BEFbRBdQRbGbWQtSjtOcMbguFcPbUCkJDQKCUbVQbFCdCbNJCdZCdFEBORBDBEBXbDcAObYcKGDBBCLbCKXZbDHbVbCBQFBKKFBbPXDBIUXDBDbY",
    "BBDCCFCBBBYDCLHDMGCGCGJHBHBbRBOCCCeLbDqnSMXEbXmnCoCCeCbMHMFFBBKBNBFBBBCBCBeEbHfJGiKScMCcCbOKePBBBDBBBBBBBBeWbKbA",
    "GbALcECbFDGCGCGCDbJMBbABTBCBPCObIeTcRcBkHbDDbXbVbGNbEFbMKbECbKEIBFbQgCSbKEbKEbOIcAMLBPBHBCBLBPBHBCDcAMlZJWKIYGBb",
    "QBOcMGCBBbSBCDBCXKXJbFcNTBCKWKbAGbAbMcEGCcMBPEBDBbDbQbDDbDbJIBbCbBcCKWKTNSeGcVcDbZNbZNbKbMbCJXjQbQGCQGRWRbDKBIWb",
    "QSbUVbBXMcBcFCCBNbTbGZbAbKbDBCBIbJDBMbWOEVBBBbJSBZTCcLHBBBEBPBKHbVbMICCCWBHBCBFDBSBMFbEKBBCBBbMBBZBBBbScBSEUDbEb",
    "WUCBBhCbVbPEbKbWUBcHbRNBcTbBbLHhDbSeMcMbFICBCIBCBYPBBBdQICbNQBBBbCBKbOHBVBLbUTBScVRBgZbHbFJBbLRBbXbEeIHBCBbMVBZG",
    "BCBbGOBXbSVBjETPBBNBbIeUBdBbjMdYeIFhZMlZdkZdTPbpGRGZfxRFwLkdDbEcpUvXHbFRdBRbESbWQEbFVFTqQbTTbEgGcMbGZCZbScXFBcON",
    "cMCBBOFJkyDbKbHdSeLNbjEObZlkNEBHBCBlLJBbDDCBOFHpGdkUeDFNDJHKiwKdHBcTBCCBCCCEBMBBBHBcNBECIBHBbCBEBFBBDHBnDBZBZBbF",
    "BZBbFBZBbFBZBbFBZBIcsYfAOHcCbZbWcKfQbTKHQBmJbESbSsQbCiUbECBhZbFBDBCBHCFJCiQHBEBCBPBhPcHcQHBbuIEBbBBCBBCBBKBEBBBB",
    "GBEBBBBBBDBCBBCBBBBBBBBBBCBBCEBHBEBEBBBKBRFDBFBRgoAclfCbGgmPBioCClbLPxYdqWuWcfYhhZFmoOcgxIqtS"]

/-- Characters from 128 on that may continue an identifier and not start one. -/
def identifierMarkRuns : List Nat :=
  lengths 0 <| List.flatMap String.toList [
    "cDBwMeIXBjRFkFbTBBBCBCBBcULbWbFGBdXHCGCCBECKXBbEbBdNLPKbHJJBYEBJBDBFbRDcHJbQYBbHcCDBSBHKCCKRDcEBBHCCCDJBKCCKOBCD",
    "cEBBFECCDDBUMDBLDcEBBIBDBDUCCKKGBDcEBBHCCCDFFKCCKSBcHFDDBEJBOKQFcDBBHBDBEHCLCCKRDcEBBHBDBEHCLCCKDBMEcDCBHBDBEJBK",
    "CCKRDcSBEGBBBIGKCCcJBBIMIBKdJBBKLHBKcKCGKLBBBBBECbXUBCFLBbKJBdWUBKMEEDBDCHDENMBPbbBDJJbjSEbCDbDCbECcMbGJBCKbHDBL",
    "fNBeOMEMKKeYLcIFcFKBbDCLGKWOBbUTFbVRLKRJMDbENCKbSObWUIKGKeODBVEBGBCDhQcMuECbXCTBeTNEBDMeoCDfLBdSbGvIGeBCdSBbsjKK",
    "cRBEKbGCdCCkMBDBEBXFEBdFCbYSKKGSNLbCIZNbSEbVOPKLBKKbVOMBICCKbHDbYBBDCCFCBBbPFFCjCIBCCKbdzGBbcJQQQDCYDhKKbLBbLBcE",
    "CxHBiSBfTFlHKcaPDBCFEbODEBgJCwBEIKGKbFFmFCcPQcSLbXEeSDcBPbFLCCKEbTLHBbTKGDbKOBKFCbSBMDbWOIEBMdEMGBCBgBMFKGEcDCBH",
    "CCCDJBKCCHDFcPJBBCBBEBFBBOCdESJKEBdDUMKiFHCJbBCdERPKdDNIKGUcFPEKjIPgJKcSGBCCEBBBCMKePHCHDBbCKbOHBEIBJLbUQhQIfGKc",
    "BIBIQKcEWBOeSGDBBCBHBBIKbWFBCBFIKcCKGBjYEJCBBbWHDFNLhxTBGPqyYbCdmCKdIKbMFcHHZKuOKbMKqFBBcDHEdDBLCbdaXCgeRKtYbUCX",
    "sMBcJFDGIICHbEEfSDLDICCBbGCcaEbYtScDEbYIBOBWFBPcaIHBRCHBCBFdWBgEHJKnSBcJOtEOjKCBKiYBCBHCFBsGHeFHFKhbAKbsvgWjG"]

/-! ## Classes -/

/-- The number, counted from the first run on, is in one of the runs of the class. -/
def inRuns : List Nat → Nat → Bool
  | outside :: inside :: runs, n =>
    outside ≤ n && (n < outside + inside || inRuns runs (n - (outside + inside)))
  | _, _ => false

/-- A character that may start an identifier. -/
def isIdentifierStart (c : Char) : Bool :=
  if c.toNat < 128 then c.isAlpha else inRuns identifierStartRuns (c.toNat - 128)

/-- A character that may continue an identifier and not start one. -/
def isIdentifierMark (c : Char) : Bool :=
  if c.toNat < 128 then c.isDigit || c == '_' else inRuns identifierMarkRuns (c.toNat - 128)

/-- A character that may stand in an identifier after its first. -/
def isIdentifierPart (c : Char) : Bool := isIdentifierStart c || isIdentifierMark c

theorem isIdentifierPart_of_start {c : Char} (h : isIdentifierStart c) : isIdentifierPart c := by
  simp [isIdentifierPart, h]

end Respell.Text
