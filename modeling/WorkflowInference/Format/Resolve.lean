import WorkflowInference.Doc
import WorkflowInference.Path
import WorkflowInference.Text.Script

/-!
The format of a file among those that an input accepts. When several formats of the ontology are
accepted, the extension of the file decides; the formats that it stands for are tried in order.
-/
namespace WorkflowInference.Format

def extensionTable : List String :=
  ["2bit 3009, a2m 3281, aaindex 1504, ab1 3000, abcd 3708, abi 1628, ace 3001, acedb 1923",
    "affymetrix 1639, affymetrix-exp 1641, afg 3582, agp 3693, alignment 1921, ambiguous 2097",
    "andi-ms 3650, announcement.json 4072, arb 3830, arff 3581, article 2020, avi 3990, axt 3013",
    "bai 3327, bam 2572, bcf 3020, bcf.gz 3020, bcforms 3951, bcml 3689, bdml 3690, beast 3843",
    "bed 3003, bed.gz 3003, bed12 3586, bed6 3585, bedgraph 3583, bedstrict 3584, bel 3691",
    "bgz 3615, bgzip 3615, bigbed 3004, bigwig 3006, binary 2333, binpos 3885, bioc 3782",
    "biojson 2352, biom 3746, biopax 3156, bioxsd 2352, bioyaml 2352 3773, blc 3313, bmp 3592",
    "bngl 3972, bpforms 3909, brat 3785, bsml 3487, btrack 3776, caf 1630, cdsxml 2184, cel 1638",
    "cellml 3240, cfg 4005, chado-xml 3844, chain 3982, chemml 4023, chp 1644, chrominfo 3587",
    "cif 4024, cigar 3992, citexplore-all 1737, citexplore-core 1736, clustal 1982, clustalw 1982",
    "cml 4023, codata 1925, commonwl 3857, connect 3309, consensus 1209, consensusxml 3832",
    "contig 3978, copasiml 3239, cram 3462, csfasta 3589, csv 3752, ct 3309, customtrack 3588",
    "cwl 3857, cytoband 3235, daf 1393, das 1967, dasdna 1968, dasgff 1978, dat 1637, data 1915",
    "dbgap 3729, dbid 1926, debug 1983, debug-feat 1979, debug-seq 1969, dhf 1336, dialign 1392",
    "dicom 3548, dna 1212, doc 3506, document 3507, docx 3506, dot-bracket 1457, dssp 1454",
    "dsv 3751, dta 3652, ebwt 3484, ebwtl 3491, eland 3818, embl 1927, embl-html 2311",
    "embl-like 2543, emblxml 2183, eml 3556, eps 3466, est2genome 1316, exchange 1915, exp 1631",
    "fasta 1929 2200, fasta-aln 1984, fasta-html 2310, fasta-like 2546, fastaq 1930, fastg 3823",
    "fastq 1930, fastq-illumina 1931, fastq-like 2545, fastq-sanger 1932, fastq-solexa 1933",
    "featurexml 3833, file 1915, findkm 1582, format 1915, fq 1930, g.vcf 4018, g.vcf.gz 4018",
    "ga 3985, galaxywf 3985, gcdml 3163, gcg 1935, gct 3709, gde 3312, gelml 3249, gen 3812",
    "genbank 1936, genbank-html 2532, genbank-like 2559, genepred 3011, geneseq 2186",
    "genpept 1937, gfa 3975 3976, gff 1975 2305, gff.gz 1975, gff2 1974, gff2-seq 1938, gff3 1975",
    "gff3-seq 1939, gff3.gz 1975, gif 3467, gifasta 1940, gml 3822, gp 3011, gpml 3657, gpr 3829",
    "graph 3617, gsuite 3775, gtf 2306, gtf.gz 2306, gtrack 3164, gvcf 4018, gvf 3019",
    "gxformat2 3985, gz 3989, gzip 3989, h5 3590, hdf 3873, hdf5 3590, hennig86 1941, hmmer 1370",
    "hmmer-aln 1391, hmmer2 3328, hmmer3 3329, hsaml 3845, hssp 1455, html 2331",
    "i_investigation.txt 4066, ibd 3839, idat 3578, idxml 3764, ig 1942, igstrict 1943, ihop 1740",
    "im 3593, image 3547, imzml 3682, inchi 1197, inchikey 1199, index 3623, inpcrd 3878",
    "insdseq 2185, ipi 2189, isa-json 4069, isa-tab 3687, jackknifer 1944, jackknifernon 1970",
    "jaspar 1367, jcamp-dx 3859, jpeg 3579, jpg 3579, json 3464 3969 3970 4025 4069, json-ld 3749",
    "jsonld 3749, kgml 3847, latex 3817, lav 3014, lhf 1337, literature 2020, loom 3913, lsm 3988",
    "m 4007, madmp 4041, maf 3008, mage-ml 3161, mage-tab 3162, map 2060 3285, markx0 1985",
    "markx1 1986, markx10 1987, markx2 1988, markx3 1989, mase 1945, mat 3626, match 1990",
    "matlab 4007, matrix 3033, mcpd 3777, mdcrd 3878, medline 2194, mega 1991, mega-seq 1946",
    "meganon 1992, meme-motif 1360, metalmage 3550, mf 1198, mgf 3651, mhd 3550 4071",
    "mhd.json 4071, mht 3556, mhtml 3556, mif 3158, mira 1629, mirgff3 3864, mirtop 3864",
    "mmcif 1477, mol2 3816, molfile 3815, mp4 3997, mpeg-4 3997, msaml 3849, msf 3702, msh 3911",
    "msp 4039, mspcrunch 1334, mtx 3916, mwtab 4070, mzdata 3834, mzidentml 3247, mzml 3244",
    "mzquantml 3248, mztab 4058 3681, mztab-l 4059, mztab-m 4058, mzxml 3654, n-quads 3956",
    "n-triples 3256, n3 3257, nbrf 1948, ncbi 1972, net 3983, netcdf 3650, neuroml 3971",
    "newick 1910, nexml 3160, nextflow 4048, nexus 1912, nexus-seq 1949, nexusnon 1973, nf 4048",
    "nh 1910, nib 3010, nifti 3549 4001, nifti-1 3549, nii 3549, nlp 3841, nmredata 3906",
    "nmrml 3825, notation3 3257, npy 4003, nq 3956, nrrd 3551, nt 3256, nucleotide 1207",
    "numpy 4003, objtables 3977, obo 2196 2549, obo-xml 2550, ome-tiff 3727, ontology 2195",
    "orthoxml 3850, oscar 1741, out 3758, owl 2197 3262, oxlicg 3665, pair 1996, parm7 3881",
    "pbm 3601, pcazip 3874, pcd 3594, pcx 3595, pdb 1476, pdbatom 1950, pdbatomnuc 1951",
    "pdbml 1478, pdbqt 4036, pdbseqres 1953, pdbseqresnuc 1952, pdf 3508, pearson 1954, ped 3286",
    "pepxml 3655, perl 3998, petab 4015, pgm 3602, pgsnp 3012, ph 1997, phd 1633, phy 1997",
    "phylip 1997, phylipnon 1998, phyloxml 3159, pickle 4002, pileup 3015, pir 1948 1976",
    "pkl 3653, pl 3998, pmc 1739, pmml 3726, png 3603, po 3330, postscript 3696, ppm 3596",
    "pptx 3838, pqr 4035, prmtop 3881, prmtop7 3881, probam 3826, probed 3827",
    "prosite-pattern 1356, prosite-profile 1366, protein 1208, protxml 3747, ps 3696, psd 3597",
    "psdml 3851, psf 3882, psi-par 3243, psl 3007, pubannotation 3781, pubtator 3783, pure 2094",
    "py 3996, python 3996, qcml 3683, qmap 3984, qual 3607, qual454 3611, qualillumina 3609",
    "qualsolexa 3608, qualsolid 3610, query 3787, quicktandem 1295, r 3999, rast 3605, raw 1957",
    "rcc 3580, rdf 3261 2376, refseqp 1958, repz 4004, res 3709, restover 1319, restrict 1318",
    "restrt 3886, rgb 3600, rmd 4000, rna 1213, rnaml 3311, rpkm 3980, rsf 3485, rst 3886",
    "rst7 3886, sam 2573, sbgn-ml 3692, sbml 2585, sbol 3725, sbrml 3155, sbtab 3688, scf 1632",
    "scores 1999, script 2032, sdf 3814, sdrf 4050, sed-ml 3685, selex 2000, sequin 3701",
    "seqxml 3852, sff 3284, sif 3619, smarts 1200, smiles 1196, smith-waterman 1335, smk 4049",
    "snakemake 4049, snpeffdb 3624, sparql 3790, spml 3250, spss 3555, sql 3788, sqlite 3621",
    "sra 3698, srf 3017, srs 2002, srspair 2003, ss 3310, staden 1960, stereolithography 3993",
    "stl 3993, stockholm 1961, strider 1962, svg 3604, swissprot 1963, t-coffee 2004, tab 3475",
    "tab-delimited 3475, tabix 3616, tabular 3751, tar 3981, tarball 3981, tbi 3616, tex 3995",
    "textual 2330, tiff 3591, tng 3876, topology 3879, trackdb 3991, trajectory 3866, traml 3246",
    "treebase 1436, treecon 1911, treecon-seq 2005, treefam 1437, trr 3910, tsv 3475 4050 4073",
    "turtle 3255, txt 1964 4050 4066 4067 4068 4070 2330, u3d 3994, uniprot 1963 2188",
    "uniprotkb 1963, uniprotkb-like 2547, unpure 2095, uri 2334, vcf 3016, vcf.gz 3016, vdb 3699",
    "vega 3969, vega-lite 3970, visml 3821, wego 3979, wiff 3710, wig 3005, wmv 3986",
    "workflow 2032, xbm 3598, xgmml 3618, xls 3468, xlsx 3977 3620, xmfa 3811, xml 2332, xpm 3599",
    "xq 3789, xquery 3789, xqy 3789, xsd 3804, xtc 3875, xyz 3877, yaml 3750, yml 3750, zarr 3915",
    "zarray 3915, zgroup 3915, zip 3987, zst 4006, zstandard 4006, ztr 3018"]

def index : List (String × List String) :=
  (extensionTable.flatMap (Text.splitOn ",")).filterMap fun e =>
    (Text.words e).head?.map (·, (Text.words e).tail)

def curie? (format : String) : Option String :=
  if Text.startsWith format "edam:format_" then some format
  else ["http://edamontology.org/", "https://edamontology.org/"].findSome? fun site =>
    match Text.stripStart? format site with
    | some rest => if Text.startsWith rest "format_" then some ("edam:" ++ rest) else none
    | none => none

def known (accepted : List Doc) : List (String × String) :=
  accepted.filterMap fun d => d.str?.bind fun s => (curie? s).map fun c => (c, s)

def fileName? (file : Entries) : Option String :=
  ["basename", "location", "path"].findSome? fun k =>
    match Entries.get? file k with
    | some (.str s) => if s = "" then none else some s
    | _ => none

def tails : List String → List String
  | [] => []
  | p :: ps => (if p = "" then [] else [Text.join "." (p :: ps)]) ++ tails ps

def extensions (file : Entries) : List String :=
  match fileName? file with
  | some n => tails ((Text.splitOn "." (Text.lower (Path.name n))).drop 1)
  | none => []

def formatsOf (extension : String) : List String :=
  ((index.lookup extension).getD []).map ("edam:format_" ++ ·)

def resolveBy (listed : String → List String) (file : Entries) (accepted : List Doc) :
    Option String :=
  match known accepted with
  | [] => none
  | [(_, name)] => some name
  | formats =>
    (extensions file).findSome? fun e => (listed e).findSome? fun f => formats.reverse.lookup f

def resolve : Entries → List Doc → Option String := resolveBy formatsOf

end WorkflowInference.Format
